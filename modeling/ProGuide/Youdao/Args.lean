import ProGuide.Youdao.WordBook
/-!
# The argument between the scripts

`youdao.py` packs each result into one argument with `get_arg_str`; `splitargs.py`
and `saveword.py` take it apart again. Alfred passes it on as it is.
-/
open ProGuide.Lib.Text

namespace ProGuide.Youdao

/-! ## Packing: `youdao.py` -/

def argSep : Str := "$%".toList

/-- `str(wf.version)`, from the workflow's version file. -/
def wfVersion : Str := "2.2.5".toList

def iconDefault : Str := "icon.png".toList

def iconPhonetic : Str := "icon_phonetic.png".toList

def iconWeb : Str := "icon_web.png".toList

/-- The values `QUERY_LANGUAGE` takes. -/
inductive QueryLanguage where
  | en2zh | zh2en | ko2zh | ja2zh
  deriving DecidableEq, Repr

def QueryLanguage.str : QueryLanguage → Str
  | .en2zh => "EN2zh-CHS".toList
  | .zh2en => "zh-CHS2EN".toList
  | .ko2zh => "KO2zh-CHS".toList
  | .ja2zh => "JA2zh-CHS".toList

/-- `[lo-hi]+` is found in the text. -/
def hasBetween (lo hi : Nat) (s : Str) : Bool := s.any fun c => lo ≤ c.toNat && c.toNat ≤ hi

def getQueryLanguage (query : Str) : QueryLanguage :=
  if hasBetween 0x4e00 0x9fa5 query then .zh2en
  else if hasBetween 0xac00 0xd7a3 query then .ko2zh
  else if hasBetween 0x0800 0x4e00 query then .ja2zh
  else .en2zh

/-- `QUERY_LANGUAGE.split('2')[i]`. -/
def languagePart (lang : QueryLanguage) (i : Nat) : Str := (split ['2'] lang.str)[i]?.getD []

/-- The language's parts are two, so unpacking them does not fail. -/
theorem split_language (lang : QueryLanguage) :
    split ['2'] lang.str = [languagePart lang 0, languagePart lang 1] := by
  cases lang <;> rfl

/-- What a caller hands to `get_arg_str`. -/
structure ArgFields where
  query : Str
  result : Str
  pronounce : Str := []
  operation : Str := []
  queryLanguage : Str := []
  deriving DecidableEq, Repr

/-- The language tag packed: `QUERY_LANGUAGE` when the caller gives none. -/
def ArgFields.language (lang : QueryLanguage) (a : ArgFields) : Str :=
  if a.queryLanguage = [] then lang.str else a.queryLanguage

def ArgFields.argArray (lang : QueryLanguage) (a : ArgFields) : List Str :=
  [wfVersion, a.query, a.result, a.language lang, a.pronounce, a.operation]

def getArgStr (lang : QueryLanguage) (a : ArgFields) : Str := argSep.intercalate (a.argArray lang)

/-- An item of the result list, with the fields its `arg` packs. -/
structure Entry where
  title : Str
  subtitle : Str
  args : ArgFields
  icon : Str
  deriving DecidableEq, Repr

/-- The part of a response about the word. A missing phonetic is empty. -/
structure Basic where
  phonetic : Str
  usPhonetic : Str
  ukPhonetic : Str
  explains : List Str

structure WebResult where
  key : Str
  value : List Str

structure Response where
  translation : List Str
  basic : Option Basic
  web : Option (List WebResult)

def addTranslation (query : Str) (rt : Response) : List Entry :=
  rt.translation.map fun title => ⟨title, "翻译结果".toList, { query := query, result := title }, iconDefault⟩

def phoneticTitle (b : Basic) : Str :=
  let title := if b.usPhonetic = [] then [] else "[美: ".toList ++ b.usPhonetic ++ "] ".toList
  let title := if b.ukPhonetic = [] then title else title ++ "[英: ".toList ++ b.ukPhonetic ++ "] ".toList
  if title = [] then "[".toList ++ b.phonetic ++ "]".toList else title

def addPhonetic (lang : QueryLanguage) (query : Str) (rt : Response) : List Entry :=
  match rt.basic with
  | none => []
  | some b =>
    if b.phonetic = [] then []
    else
      let title := phoneticTitle b
      [⟨title, "有道发音".toList,
        { query := query, result := title, pronounce := query, queryLanguage := languagePart lang 0 }, iconPhonetic⟩]

def addExplains (query : Str) (rt : Response) : List Entry :=
  match rt.basic with
  | none => []
  | some b =>
    b.explains.map fun title => ⟨title, "简明释意".toList, { query := query, result := title }, iconPhonetic⟩

def addWebTranslation (lang : QueryLanguage) (query : Str) (rt : Response) : List Entry :=
  (rt.web.getD []).flatMap fun w => w.value.map fun value =>
    ⟨value, "网络翻译: ".toList ++ w.key,
      { query := query, result := value,
        pronounce := if languagePart lang 1 = "EN".toList then value else w.key }, iconWeb⟩

/-- What a successful query adds to the result list. -/
def addAll (query : Str) (rt : Response) : List Entry :=
  let lang := getQueryLanguage query
  addTranslation query rt ++ addPhonetic lang query rt ++ addExplains query rt ++ addWebTranslation lang query rt

/-! ## Unpacking: `splitargs.py` and `saveword.py` -/

/-- What `splitargs.py` does besides returning. -/
inductive Effect where
  | write (text : Str)
  | system (command : Str)
  | startUpdate
  | browse (url : Str)
  | nothing
  deriving DecidableEq, Repr

def escapeQuote (result : Str) : Str := replaceAll ['"'] "\\\"".toList (replaceAll ['\''] "\\'".toList result)

/-- `os.system` of the `say` command. -/
def say (voice text : Str) : Effect :=
  .system ("say --voice='".toList ++ voice ++ "' ".toList ++ escapeQuote text)

/-- The voice of a language spoken from. -/
def voice (data_form : Str) : Option Str :=
  if data_form = "EN".toList then some "Samantha".toList
  else if data_form = "KO".toList then some "Yuna".toList
  else if data_form = "zh-CHS".toList then some "Ting-Ting".toList
  else if data_form = "JA".toList then some "Kyoko".toList
  else none

/-- The command `pronounce`. More than one `2` in the language tag ends it. -/
def speak (query result query_language pronounce : Str) : Effect :=
  let forms :=
    if '2' ∈ query_language then
      match split ['2'] query_language with
      | [data_form, data_to] => some (data_form, data_to)
      | _ => none
    else some (query_language, [])
  match forms with
  | none => .nothing
  | some (data_form, data_to) =>
    match voice data_form with
    | some v => say v (if pronounce = [] then query else pronounce)
    | none =>
      if data_to = "EN".toList then say "Samantha".toList (if pronounce = [] then result else pronounce)
      else .nothing

/-- The six fields of an argument, the version first; none for an `IndexError`. -/
def readArgs (arg : Str) : Option (Str × ArgFields) :=
  match split argSep arg with
  | version :: query :: result :: query_language :: pronounce :: operation :: _ =>
    some (version, ⟨query, result, pronounce, operation, query_language⟩)
  | _ => none

/-- The update and error branches, by operation. -/
def operationEffect (operation : Str) : Option Effect :=
  if operation = "update_now".toList then some .startUpdate
  else if operation = "update_with_url".toList then
    some (.browse "https://github.com/whyliam/whyliam.workflows.youdao/releases".toList)
  else if operation = "update_next_time".toList then some .nothing
  else if operation = "error".toList then
    some (.browse "https://blog.naaln.com/2017/04/alfred-youdao-intro/".toList)
  else none

def getArgs (arg command : Str) : Effect :=
  match readArgs arg with
  | none => .nothing
  | some (_version, a) =>
    match operationEffect a.operation with
    | some e => e
    | none =>
      if command = "search".toList then .write a.query
      else if command = "copy".toList then .write a.result
      else if command = "pronounce".toList then speak a.query a.result a.queryLanguage a.pronounce
      else .nothing

/-- The item the main block of `saveword.py` builds from the argument. -/
def savewordItem (arg : Str) : Except PyExc Dict :=
  match split argSep arg with
  | _version :: query :: result :: _ => .ok (mainItem query result)
  | _ => .error .indexError

/-! ## The round trip -/

/-- Both scripts get back from the argument what was packed into it. -/
structure RoundTrips (lang : QueryLanguage) (a : ArgFields) : Prop where
  fields : readArgs (getArgStr lang a) = some (wfVersion, { a with queryLanguage := a.language lang })
  no_branch : ∀ r ∈ readArgs (getArgStr lang a), operationEffect r.2.operation = none
  search : getArgs (getArgStr lang a) "search".toList = .write a.query
  copy : getArgs (getArgStr lang a) "copy".toList = .write a.result
  pronounce : getArgs (getArgStr lang a) "pronounce".toList = speak a.query a.result (a.language lang) a.pronounce
  saveword : savewordItem (getArgStr lang a) = .ok (mainItem a.query a.result)

theorem argSep_ne_nil : argSep ≠ [] := List.cons_ne_nil _ _

theorem argSep_unbordered : Unbordered argSep := unbordered_cons (by decide)

/-- The separator is in none of the fields that come from outside. -/
def ArgFields.SepFree (a : ArgFields) : Prop :=
  ¬ argSep <:+: a.query ∧ ¬ argSep <:+: a.result ∧ ¬ argSep <:+: a.pronounce

instance (a : ArgFields) : Decidable a.SepFree := inferInstanceAs (Decidable (_ ∧ _ ∧ _))

/-- Splitting gives back the fields exactly when none holds the separator. -/
theorem split_getArgStr_iff (lang : QueryLanguage) (a : ArgFields) :
    split argSep (getArgStr lang a) = a.argArray lang ↔ ∀ f ∈ a.argArray lang, ¬ argSep <:+: f := by
  constructor
  · intro h
    rw [← h]
    exact split_free argSep_ne_nil
  · intro h
    exact split_join argSep_ne_nil argSep_unbordered _ (List.cons_ne_nil _ _) h

theorem readArgs_getArgStr {lang : QueryLanguage} {a : ArgFields} (h : ∀ f ∈ a.argArray lang, ¬ argSep <:+: f) :
    readArgs (getArgStr lang a) = some (wfVersion, { a with queryLanguage := a.language lang }) := by
  rw [readArgs, (split_getArgStr_iff lang a).2 h]
  rfl

theorem savewordItem_getArgStr {lang : QueryLanguage} {a : ArgFields} (h : ∀ f ∈ a.argArray lang, ¬ argSep <:+: f) :
    savewordItem (getArgStr lang a) = .ok (mainItem a.query a.result) := by
  rw [savewordItem, (split_getArgStr_iff lang a).2 h]
  rfl

/-- Without an operation, a command works on the fields. -/
theorem getArgs_of_readArgs {arg version : Str} {a : ArgFields} (h : readArgs arg = some (version, a))
    (ho : a.operation = []) (command : Str) : getArgs arg command =
      if command = "search".toList then .write a.query
      else if command = "copy".toList then .write a.result
      else if command = "pronounce".toList then speak a.query a.result a.queryLanguage a.pronounce
      else .nothing := by
  have hnone : operationEffect a.operation = none := by
    rw [ho]
    rfl
  simp only [getArgs, h, hnone]

/-- The fields read are pieces of the argument. -/
theorem sepFree_of_readArgs {arg version : Str} {a : ArgFields} (h : readArgs arg = some (version, a)) : a.SepFree := by
  have hfree := @split_free _ _ argSep arg argSep_ne_nil
  unfold readArgs at h
  split at h
  · next version query result query_language pronounce operation rest heq =>
    rw [heq] at hfree
    obtain ⟨rfl, rfl⟩ := Prod.mk.inj (Option.some.inj h)
    exact ⟨hfree _ (by simp), hfree _ (by simp), hfree _ (by simp)⟩
  · cases h

/-- Without an operation and with a tag free of the separator, the round trip
holds exactly when the separator is in none of the other fields. -/
theorem roundTrips_iff {lang : QueryLanguage} {a : ArgFields} (ho : a.operation = [])
    (hl : ¬ argSep <:+: a.language lang) : RoundTrips lang a ↔ a.SepFree := by
  constructor
  · intro h
    have hfree := sepFree_of_readArgs h.fields
    exact hfree
  · rintro ⟨hq, hr, hp⟩
    have hfree : ∀ f ∈ a.argArray lang, ¬ argSep <:+: f := by
      have hv : ¬ argSep <:+: wfVersion := by decide
      have hnil : ¬ argSep <:+: ([] : Str) := by decide
      simp [ArgFields.argArray, hv, hq, hr, hl, hp, ho, hnil]
    have hread := readArgs_getArgStr hfree
    have hcommand := getArgs_of_readArgs hread ho
    refine ⟨hread, ?_, hcommand _, hcommand _, hcommand _, savewordItem_getArgStr hfree⟩
    intro r hr
    rw [hread, Option.mem_some_iff] at hr
    rw [← hr, ho]
    rfl

/-- The result list packs no operation, and the language or its first part. -/
theorem mem_addAll {query : Str} {rt : Response} {e : Entry} (he : e ∈ addAll query rt) :
    e.args.operation = [] ∧
      (e.args.queryLanguage = [] ∨ e.args.queryLanguage = languagePart (getQueryLanguage query) 0) := by
  simp only [addAll, List.mem_append] at he
  rcases he with ((he | he) | he) | he
  · obtain ⟨t, -, rfl⟩ := List.mem_map.1 he
    exact ⟨rfl, .inl rfl⟩
  · unfold addPhonetic at he
    split at he
    · cases he
    · split at he
      · cases he
      · obtain rfl := List.mem_singleton.1 he
        exact ⟨rfl, .inr rfl⟩
  · unfold addExplains at he
    split at he
    · cases he
    · obtain ⟨t, -, rfl⟩ := List.mem_map.1 he
      exact ⟨rfl, .inl rfl⟩
  · obtain ⟨w, -, he⟩ := List.mem_flatMap.1 he
    obtain ⟨v, -, rfl⟩ := List.mem_map.1 he
    exact ⟨rfl, .inl rfl⟩

theorem language_free {lang : QueryLanguage} {a : ArgFields}
    (h : a.queryLanguage = [] ∨ a.queryLanguage = languagePart lang 0) : ¬ argSep <:+: a.language lang := by
  unfold ArgFields.language
  rcases h with h | h <;> rw [h] <;> cases lang <;> decide

/-- An entry of the result list comes back from its argument exactly when neither
the query, the result nor the pronunciation holds the separator. -/
theorem entry_roundTrips_iff {query : Str} {rt : Response} {e : Entry} (he : e ∈ addAll query rt) :
    RoundTrips (getQueryLanguage query) e.args ↔ e.args.SepFree :=
  roundTrips_iff (mem_addAll he).1 (language_free (mem_addAll he).2)

/-- A response with translations only. -/
def translated (titles : List Str) : Response := ⟨titles, none, none⟩

theorem entry_roundTrips_lookup : RoundTrips .en2zh { query := "lookup".toList, result := "查找".toList } := by
  have he : ⟨"查找".toList, "翻译结果".toList, { query := "lookup".toList, result := "查找".toList }, iconDefault⟩ ∈
      addAll "lookup".toList (translated ["查找".toList]) := by decide
  exact (entry_roundTrips_iff he).2 (by decide)

/-- A query of the history log. -/
def recordedQuery : Str := "2.2.5$%$%$%EN2zh-CHS$%$%error".toList

def recordedArgs : ArgFields := { query := recordedQuery, result := "2.2.5 $ % $ % $ % EN2zh-CHS $ % $ %错误".toList }

/-- The recorded query is packed by `add_translation`; the command `search` writes
only its first piece. -/
theorem recorded_query_lost :
    recordedArgs ∈ (addAll recordedQuery (translated [recordedArgs.result])).map Entry.args ∧
      getArgs (getArgStr .en2zh recordedArgs) "search".toList = .write "2.2.5".toList ∧
      ¬ RoundTrips (getQueryLanguage recordedQuery) recordedArgs := by
  have hlanguage : getQueryLanguage recordedQuery = .en2zh := by decide +kernel
  have hsearch : getArgs (getArgStr .en2zh recordedArgs) "search".toList = .write "2.2.5".toList := by decide +kernel
  refine ⟨by simp [addAll, addTranslation, translated, recordedArgs], hsearch, fun h => ?_⟩
  have hwhole := h.search
  rw [hlanguage, hsearch, Effect.write.injEq] at hwhole
  exact absurd hwhole (by decide)

end ProGuide.Youdao
