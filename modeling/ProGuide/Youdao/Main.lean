import ProGuide.Lib.Runs
import ProGuide.Lib.Unicode
import ProGuide.Youdao.Args
import ProGuide.Youdao.History
/-!
# The script filter

`main` of `youdao.py`: a call shows an update, the history, the results of a lookup or
an error, and every item carries an argument for `splitargs.py`. Calls leave the history
log to later ones.
-/
open ProGuide.Lib ProGuide.Lib.Text ProGuide.Lib.Json ProGuide.Lib.Runs

namespace ProGuide.Youdao

/-! ## Texts -/

/-- The UTF-16 code units of a text. -/
def utf16 (s : Str) : Units := s.flatMap fun c =>
  if c.toNat < 0x10000 then [c.toNat]
  else [0xd800 + (c.toNat - 0x10000) / 0x400, 0xdc00 + (c.toNat - 0x10000) % 0x400]

/-- `ERRORCODE_DICT`. -/
def errorCodeDict : List (Str × Str) := [
  ("20".toList, "要翻译的文本过长".toList),
  ("30".toList, "无法进行有效的翻译".toList),
  ("40".toList, "不支持的语言类型".toList),
  ("50".toList, "无效的key".toList),
  ("60".toList, "无词典结果，仅在获取词典结果生效".toList),
  ("101".toList, "缺少必填的参数，出现这个情况还可能是et的值和实际加密方式不对应".toList),
  ("102".toList, "不支持的语言类型".toList),
  ("103".toList, "翻译文本过长".toList),
  ("104".toList, "不支持的API类型".toList),
  ("105".toList, "不支持的签名类型".toList),
  ("106".toList, "不支持的响应类型".toList),
  ("107".toList, "不支持的传输加密类型".toList),
  ("108".toList, ("appKey无效，注册账号， 登录后台创建应用和实例并完成绑定，        " ++
    "可获得应用ID和密钥等信息，其中应用ID就是appKey（注意不是应用密钥）").toList),
  ("109".toList, "batchLog格式不正确".toList),
  ("110".toList, "无相关服务的有效实例".toList),
  ("111".toList, "开发者账号无效".toList),
  ("113".toList, "q不能为空".toList),
  ("201".toList, "解密失败，可能为DES,BASE64,URLDecode的错误".toList),
  ("202".toList, "签名检验失败".toList),
  ("203".toList, "访问IP地址不在可访问IP列表".toList),
  ("205".toList, "请求的接口与应用的平台类型不一致，如有疑问请参考[入门指南]".toList),
  ("206".toList, "因为时间戳无效导致签名校验失败".toList),
  ("207".toList, "重放请求".toList),
  ("301".toList, "辞典查询失败".toList),
  ("302".toList, "翻译查询失败".toList),
  ("303".toList, "服务端的其它异常".toList),
  ("401".toList, "账户已经欠费停".toList),
  ("411".toList, "访问频率受限,请稍后访问".toList),
  ("412".toList, "长请求过于频繁，请稍后访问".toList),
  ("500".toList, "有道翻译失败".toList)]

def iconUpdate : Str := "icon_update.png".toList

def iconError : Str := "icon_error.png".toList

/-! ## Calls -/

/-- What the web service answers: `str(rt.get("errorCode"))`, and the rest. -/
structure Reply where
  errorCode : Str
  response : Response

/-- A call of the script: whether `random.random() < 0.01 and wf.update_available`,
`wf.args[0]`, and the answer to it, if the service gives one. -/
structure Invocation where
  update : Bool
  arg : Str
  answer : Option Reply

def Invocation.query (i : Invocation) : Str := Unicode.strip i.arg

/-- `fetch_translation`. -/
def fetchTranslation (answer : Option Reply) : Reply := answer.getD ⟨"500".toList, ⟨[], none, none⟩⟩

/-- The items of `is_expired`. -/
def updateEntries : List Entry := [
  ⟨"马上更新（点击后请打开 Alfred 的 Preference 完成更新）".toList, "有新版本更新".toList,
    { query := [], result := [], operation := "update_now".toList }, iconUpdate⟩,
  ⟨"手动更新".toList, "有新版本更新".toList,
    { query := [], result := [], operation := "update_with_url".toList }, iconError⟩,
  ⟨"暂不更新".toList, "有新版本更新".toList,
    { query := [], result := [], operation := "update_next_time".toList }, iconError⟩]

def errorEntry (errorCode text : Str) : Entry :=
  ⟨errorCode ++ " ".toList ++ text, [], { query := [], result := [], operation := "error".toList }, iconError⟩

def untranslatedEntry (query : Str) : Entry :=
  ⟨"有道也翻译不出来了".toList, "尝试一下去网站搜索".toList, { query := query, result := [] }, iconDefault⟩

/-- The item in the feedback, its argument packed. -/
def Entry.shown (lang : QueryLanguage) (e : Entry) : Shown :=
  ⟨.str (utf16 e.title), .str (utf16 e.subtitle), .str (utf16 (getArgStr lang e.args)), .str (utf16 e.icon)⟩

/-- The record `add_translation` saves of an item. -/
def Entry.record (lang : QueryLanguage) (e : Entry) : Record :=
  ⟨utf16 e.args.query, utf16 e.title, utf16 (getArgStr lang e.args), utf16 iconDefault⟩

/-- `QUERY_LANGUAGE` when the items of a call are packed. -/
def Invocation.language (i : Invocation) : QueryLanguage := if i.update then .en2zh else getQueryLanguage i.query

/-- The items a call adds itself; the history comes from the log. -/
def entries (i : Invocation) : List Entry :=
  if i.update then updateEntries
  else if i.query = "*".toList then []
  else
    let rt := fetchTranslation i.answer
    match errorCodeDict.lookup rt.errorCode with
    | some text => [errorEntry rt.errorCode text]
    | none => if rt.errorCode = "0".toList then addAll i.query rt.response else [untranslatedEntry i.query]

/-- The items of a call that are saved in the history. -/
def saved (i : Invocation) : List Entry :=
  let rt := fetchTranslation i.answer
  if i.update || i.query = "*".toList || (errorCodeDict.lookup rt.errorCode).isSome then []
  else if rt.errorCode = "0".toList then addTranslation i.query rt.response
  else []

/-- Opening the log for appending makes it. -/
def appendHistory (log : Option Units) (r : Record) : Option Units := some (saveHistoryData (log.getD []) r)

/-- `main`: the log it leaves, and the feedback. -/
def main (log : Option Units) (i : Invocation) : Option Units × Except PyExc (List Shown) :=
  if !i.update && i.query = "*".toList then
    (log, match log with
      | none => .error .ioError
      | some text => .ok (getHistoryData text))
  else
    (((saved i).map (Entry.record i.language)).foldl appendHistory log, .ok ((entries i).map (Entry.shown i.language)))

/-! ## Items and what they do -/

/-- What a command does with the fields. -/
def commandEffect (a : ArgFields) (command : Str) : Effect :=
  if command = "search".toList then .write a.query
  else if command = "copy".toList then .write a.result
  else if command = "pronounce".toList then speak a.query a.result a.queryLanguage a.pronounce
  else .nothing

/-- The fields that come back from the argument of an item. -/
def ArgFields.unpacked (lang : QueryLanguage) (a : ArgFields) : ArgFields := { a with queryLanguage := a.language lang }

/-- An item of a call packs an operation that `splitargs.py` knows and nothing else, or
no operation. -/
theorem mem_entries {i : Invocation} {e : Entry} (he : e ∈ entries i) :
    (∃ o eff, operationEffect o = some eff ∧ ¬ argSep <:+: o ∧ e.args = { query := [], result := [], operation := o }) ∨
    (e.args.operation = [] ∧ (e.args.queryLanguage = [] ∨ e.args.queryLanguage = languagePart i.language 0)) := by
  unfold entries at he
  split at he
  · refine .inl ?_
    simp only [updateEntries, List.mem_cons, List.not_mem_nil, or_false] at he
    rcases he with rfl | rfl | rfl
    · exact ⟨"update_now".toList, .startUpdate, by decide, by decide, rfl⟩
    · exact ⟨"update_with_url".toList, _, rfl, by decide, rfl⟩
    · exact ⟨"update_next_time".toList, .nothing, by decide, by decide, rfl⟩
  · rename_i hupdate
    split at he
    · cases he
    · cases hcode : errorCodeDict.lookup (fetchTranslation i.answer).errorCode with
      | some text =>
        simp only [hcode] at he
        obtain rfl := List.mem_singleton.1 he
        exact .inl ⟨"error".toList, _, rfl, by decide, rfl⟩
      | none =>
        simp only [hcode] at he
        refine .inr ?_
        split at he
        · have hlang : i.language = getQueryLanguage i.query := by
            rw [Invocation.language, if_neg hupdate]
          rw [hlang]
          exact mem_addAll he
        · obtain rfl := List.mem_singleton.1 he
          exact ⟨rfl, .inl rfl⟩

/-- Nothing that an item packs besides its texts holds the separator. -/
theorem argArray_free_iff {i : Invocation} {e : Entry} (he : e ∈ entries i) :
    (∀ f ∈ e.args.argArray i.language, ¬ argSep <:+: f) ↔ e.args.SepFree := by
  have hversion : ¬ argSep <:+: wfVersion := by decide
  have hnil : ¬ argSep <:+: ([] : Str) := by decide
  obtain ⟨o, eff, -, ho, hargs⟩ | ⟨ho, hl⟩ := mem_entries he
  · have hlang : ¬ argSep <:+: i.language.str := by
      have hfree := @language_free i.language ⟨[], [], [], [], []⟩ (.inl rfl)
      exact hfree
    rw [hargs]
    simp [ArgFields.argArray, ArgFields.language, ArgFields.SepFree, hversion, hnil, hlang, ho]
  · have hlang := language_free hl
    simp [ArgFields.argArray, ArgFields.SepFree, hversion, hlang, ho, hnil]

/-- The fields of an item that a call makes itself come back from its argument exactly
when the separator is in none of its texts; every command then does with them what it
does with the fields themselves. An update or an error does what it stands for. -/
theorem main_item_acts {i : Invocation} {e : Entry} (he : e ∈ entries i) :
    (readArgs (getArgStr i.language e.args) = some (wfVersion, e.args.unpacked i.language) ↔ e.args.SepFree) ∧
    (e.args.SepFree → ∀ command, getArgs (getArgStr i.language e.args) command =
      (operationEffect e.args.operation).getD (commandEffect (e.args.unpacked i.language) command)) ∧
    (e.args.operation ≠ [] → (operationEffect e.args.operation).isSome = true ∧ e.args.SepFree) := by
  have hread : e.args.SepFree →
      readArgs (getArgStr i.language e.args) = some (wfVersion, e.args.unpacked i.language) := fun hfree =>
    readArgs_getArgStr ((argArray_free_iff he).2 hfree)
  refine ⟨⟨fun h => ?_, hread⟩, fun hfree command => ?_, fun hop => ?_⟩
  · have hfree := sepFree_of_readArgs h
    exact hfree
  · have hoperation : (e.args.unpacked i.language).operation = e.args.operation := rfl
    rw [getArgs, hread hfree]
    simp only [hoperation]
    cases operationEffect e.args.operation <;> rfl
  · obtain ⟨o, eff, heff, -, hargs⟩ | ⟨ho, -⟩ := mem_entries he
    · have hnil : ¬ argSep <:+: ([] : Str) := by decide
      rw [hargs]
      exact ⟨by rw [heff]; rfl, hnil, hnil, hnil⟩
    · exact absurd ho hop

/-- A query that the service does not know. -/
def unknownWord : Invocation := ⟨false, "asdfgh".toList, some ⟨"70".toList, ⟨[], none, none⟩⟩⟩

theorem main_item_acts_unknown :
    readArgs (getArgStr unknownWord.language (untranslatedEntry "asdfgh".toList).args) =
      some (wfVersion, (untranslatedEntry "asdfgh".toList).args.unpacked unknownWord.language) :=
  (main_item_acts (i := unknownWord) (e := untranslatedEntry "asdfgh".toList) (by decide +kernel)).1.2 (by decide)

/-! ## The history of a session -/

/-- An item that was saved in the history, with the language it was packed under. -/
structure Looked where
  language : QueryLanguage
  entry : Entry

def Looked.record (l : Looked) : Record := l.entry.record l.language

/-- The items saved by some calls, oldest first. -/
def lookups (is : List Invocation) : List Looked := is.flatMap fun i => (saved i).map fun e => ⟨i.language, e⟩

def lastNine (is : List Invocation) : List Looked := (lookups is).reverse.take 9

/-- A text without quotes, backslashes and control characters. -/
def Clean (s : Str) : Prop := ∀ c ∈ s, c ≠ '"' ∧ c ≠ '\\' ∧ ' ' ≤ c

theorem special_iff (c : Char) : special c.toNat = false ↔ c ≠ '"' ∧ c ≠ '\\' ∧ ' ' ≤ c := by
  have hquote : c.toNat = 34 ↔ c = '"' := ⟨fun h => Char.ext (UInt32.toNat_inj.1 h), fun h => by rw [h]; rfl⟩
  have hslash : c.toNat = 92 ↔ c = '\\' := ⟨fun h => Char.ext (UInt32.toNat_inj.1 h), fun h => by rw [h]; rfl⟩
  have hspace : ' ' ≤ c ↔ 32 ≤ c.toNat := Iff.rfl
  simp only [special, Bool.or_eq_false_iff, decide_eq_false_iff_not, hquote, hslash, hspace, not_lt, and_assoc, ne_eq]

theorem special_large {n : Nat} (h : 128 ≤ n) : special n = false := by
  simp only [special, quote, backslash, Bool.or_eq_false_iff, decide_eq_false_iff_not]
  omega

/-- Surrogates stand for themselves in a JSON string. -/
theorem plain_utf16_iff (s : Str) : Json.Plain (utf16 s) ↔ Clean s := by
  have hunit (c : Char) : (∀ u ∈ utf16 [c], special u = false) ↔ special c.toNat = false := by
    rw [utf16, List.flatMap_singleton]
    split
    · simp
    · have hhigh (n : Nat) : special (0xd800 + n) = false := special_large (by omega)
      have hlow (n : Nat) : special (0xdc00 + n) = false := special_large (by omega)
      have hlarge : special c.toNat = false := special_large (by omega)
      simp [hhigh, hlow, hlarge]
  have hcons (c : Char) (s : Str) : utf16 (c :: s) = utf16 [c] ++ utf16 s := by
    simp only [utf16, List.flatMap_cons, List.flatMap_nil, List.append_nil]
  induction s with
  | nil => simp [utf16, Clean, Json.Plain]
  | cons c s ih =>
    rw [hcons, Json.Plain, Clean, List.forall_mem_append, List.forall_mem_cons]
    exact and_congr ((hunit c).trans (special_iff c)) ih

theorem clean_append (s t : Str) : Clean (s ++ t) ↔ Clean s ∧ Clean t := List.forall_mem_append

/-- Of the texts of a record, the argument is made of the query and the title. -/
theorem record_plain_iff {i : Invocation} {e : Entry} (he : e ∈ saved i) :
    (e.record i.language).Plain ↔ Clean e.args.query ∧ Clean e.title := by
  have hargs : e.args = { query := e.args.query, result := e.title } := by
    simp only [saved] at he
    split at he
    · cases he
    · split at he
      · obtain ⟨t, -, rfl⟩ := List.mem_map.1 he
        rfl
      · cases he
  have hicon : Clean iconDefault := forall_mem_of_all rfl
  have hsep : Clean argSep := forall_mem_of_all rfl
  have hversion : Clean wfVersion := forall_mem_of_all rfl
  have hlang : Clean i.language.str := by cases i.language <;> exact forall_mem_of_all rfl
  have harg : Clean (getArgStr i.language e.args) ↔ Clean e.args.query ∧ Clean e.title := by
    rw [hargs]
    simp [getArgStr, ArgFields.argArray, ArgFields.language, List.intercalate, List.intersperse, clean_append, hsep,
      hversion, hlang]
  simp only [Record.Plain, Record.members, Entry.record, List.forall_mem_cons, plain_utf16_iff, harg]
  constructor
  · rintro ⟨hquery, htitle, -⟩
    exact ⟨hquery, htitle⟩
  · rintro ⟨hquery, htitle⟩
    exact ⟨hquery, htitle, ⟨hquery, htitle⟩, hicon, fun _ h => absurd h List.not_mem_nil⟩

theorem foldl_appendHistory (rs : List Record) (log : Units) :
    rs.foldl appendHistory (some log) = some (rs.foldl saveHistoryData log) := by
  induction rs generalizing log with
  | nil => rfl
  | cons r rs ih => exact ih _

/-- Calls leave the log of the records they save. -/
theorem final_main (log : Option Units) (is : List Invocation) :
    final main log is = ((lookups is).map Looked.record).foldl appendHistory log := by
  induction is generalizing log with
  | nil => rfl
  | cons i is ih =>
    have hcons : lookups (i :: is) = ((saved i).map fun e => ⟨i.language, e⟩) ++ lookups is := List.flatMap_cons ..
    rw [final, ih, hcons, List.map_append, List.foldl_append]
    congr 1
    unfold main
    split
    · rename_i hstar
      have hnone : saved i = [] := by
        simp_all [saved]
      rw [hnone]
      rfl
    · rw [List.map_map]
      rfl

theorem mem_lookups {is : List Invocation} {l : Looked} (h : l ∈ lookups is) :
    ∃ i ∈ is, l.language = i.language ∧ l.entry ∈ saved i := by
  obtain ⟨i, hi, hl⟩ := List.mem_flatMap.1 h
  obtain ⟨e, he, rfl⟩ := List.mem_map.1 hl
  exact ⟨i, hi, rfl, he⟩

/-- What is saved was shown. -/
theorem saved_subset (i : Invocation) : saved i ⊆ entries i := by
  intro e he
  simp only [saved] at he
  split at he
  · cases he
  · rename_i hshown
    split at he
    · rename_i hzero
      simp only [Bool.or_eq_true, decide_eq_true_eq, not_or, Option.not_isSome_iff_eq_none] at hshown
      obtain ⟨⟨hupdate, hstar⟩, hcode⟩ := hshown
      simp only [entries, if_neg hupdate, if_neg hstar, hcode, if_pos hzero, addAll, List.mem_append]
      exact .inl (.inl (.inl he))
    · cases he

theorem kept_lookups (is : List Invocation) :
    kept ((lookups is).map Looked.record) = (lastNine is).map Looked.record := by
  rw [kept, lastNine, ← List.map_reverse, List.map_take]

theorem main_history {i : Invocation} (hu : i.update = false) (hq : i.query = "*".toList) (log : Option Units) :
    main log i = (log, match log with
      | none => .error .ioError
      | some text => .ok (getHistoryData text)) := by
  have hstar : (!i.update && decide (i.query = "*".toList)) = true := by
    rw [hu, hq]
    rfl
  unfold main
  rw [if_pos hstar]

/-- After any calls, `*` shows the last nine translations again, newest first, exactly
when one was shown at all and none of these has a quote, a backslash or a control
character in its query or its text; it then fails, or shows something else. Each of them
was shown by a call, with the argument it has in the log. -/
theorem history_replays (is : List Invocation) (answer : Option Reply) :
    ((main (final main none is) ⟨false, "*".toList, answer⟩).2 = .ok ((lastNine is).map fun l => l.record.shown) ↔
      lookups is ≠ [] ∧ ∀ l ∈ lastNine is, Clean l.entry.args.query ∧ Clean l.entry.title) ∧
    ∀ l ∈ lastNine is, ∃ i ∈ is, l.entry ∈ entries i ∧ l.record.shown.arg = (l.entry.shown i.language).arg := by
  have hsaved : ∀ l ∈ lastNine is, ∃ i ∈ is, l.language = i.language ∧ l.entry ∈ saved i := fun l hl =>
    mem_lookups (List.mem_reverse.1 (List.mem_of_mem_take hl))
  refine ⟨?_, fun l hl => ?_⟩
  · have hplain : (∀ r ∈ kept ((lookups is).map Looked.record), r.Plain) ↔
        ∀ l ∈ lastNine is, Clean l.entry.args.query ∧ Clean l.entry.title := by
      rw [kept_lookups, List.forall_mem_map]
      refine forall₂_congr fun l hl => ?_
      obtain ⟨i, -, hlang, he⟩ := hsaved l hl
      rw [Looked.record, hlang]
      exact record_plain_iff he
    have hstar : (⟨false, "*".toList, answer⟩ : Invocation).query = "*".toList := by
      have hstrip : Unicode.strip "*".toList = "*".toList := by decide +kernel
      exact hstrip
    rw [final_main, main_history rfl hstar]
    cases hl : lookups is with
    | nil => simp
    | cons l ls =>
      have hlog : ((l :: ls).map Looked.record).foldl appendHistory none =
          some (((lookups is).map Looked.record).foldl saveHistoryData []) := by
        rw [hl]
        exact foldl_appendHistory _ _
      have hitems : ((lastNine is).map fun l => l.record.shown) =
          (kept ((lookups is).map Looked.record)).map Record.shown := by
        rw [kept_lookups, List.map_map]
        rfl
      rw [hlog, Except.ok.injEq, hitems, ← hplain]
      simp only [ne_eq, reduceCtorEq, not_false_eq_true, true_and]
      exact ⟨plain_of_faithful, faithful_of_plain⟩
  · obtain ⟨i, hi, hlang, he⟩ := hsaved l hl
    exact ⟨i, hi, saved_subset i he, by rw [← hlang]; rfl⟩

end ProGuide.Youdao
