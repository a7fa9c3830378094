import ProGuide.Lib.Runs
import ProGuide.Youdao.Main
import ProGuide.Youdao.WordBookTheorems
/-!
# Saving what was shown

An item of the script filter is saved by `saveword.py`, which takes its argument apart.
A machine on the local word book, and the book of items it stands for, over any choices
and any failures.
-/
open ProGuide.Lib ProGuide.Lib.SreParse ProGuide.Lib.Latest ProGuide.Lib.Runs

namespace ProGuide.Youdao

/-! ## The calls -/

/-- A call of `saveword.py`: its argument, what the online word book answers, and what can
be done with the local file. -/
structure SaveCall where
  arg : Str
  net : Net
  readable : Bool
  writable : Bool
  failsAt : Option Nat

/-- The main block of `saveword.py`: the local file it leaves, and what it prints. An
exception leaves the file as it was. -/
def savewordMain (file : Option Str) (c : SaveCall) : Option Str × Except PyExc Str :=
  match savewordItem c.arg with
  | .error e => (file, .error e)
  | .ok item =>
    match save c.net item ⟨file, c.readable, c.writable, c.failsAt⟩ with
    | .error e => (file, .error e)
    | .ok (message, d) => (d.file, .ok message)

/-! ## The book -/

/-- An item chosen to be saved. -/
structure Choice where
  invocation : Invocation
  entry : Entry
  net : Net
  readable : Bool
  writable : Bool

/-- A file that opens takes all that is written. -/
def Choice.call (c : Choice) : SaveCall :=
  ⟨getArgStr c.invocation.language c.entry.args, c.net, c.readable, c.writable, none⟩

/-- The word and translation of a choice. -/
def Choice.save (c : Choice) : Save := mainSave c.entry.args.query c.entry.args.result

/-- The pattern made of the word is no regular expression. -/
def Choice.Refused (c : Choice) : Prop := ∃ e, compile (wordPattern c.entry.args.query) = .error e

instance (c : Choice) : Decidable c.Refused :=
  match h : compile (wordPattern c.entry.args.query) with
  | .error e => .isTrue ⟨e, h⟩
  | .ok p => .isFalse fun ⟨e, he⟩ => by cases h.symm.trans he

/-- The local file can be read, if there is one, and written. -/
def Choice.opens (c : Choice) (book : Option (List Save)) : Bool := c.writable && (book.isNone || c.readable)

/-- What a choice does to the book: an item takes the place of the last one of its word,
and a word whose pattern is refused empties the book, though the message is the same. -/
def bookStep (book : Option (List Save)) (c : Choice) : Option (List Save) × Except PyExc Str :=
  match c.net.online with
  | .error e => (book, .error e)
  | .ok true => (book, .ok onlineMessage)
  | .ok false =>
    (if c.opens book then
      if c.Refused then some [] else some (put Save.word (book.getD []) c.save)
    else book, .ok localMessage)

/-- The item was shown; its texts are free of the separator and of the book's markup, and
the pattern parser takes the word as it is or refuses it. -/
structure Choice.Ok (c : Choice) : Prop where
  shown : c.entry ∈ entries c.invocation
  sepFree : c.entry.args.SepFree
  safe : c.save.Safe
  word : Plain c.entry.args.query ∨ c.Refused

/-! ## One save -/

/-- The argument gives the item chosen back. -/
theorem Choice.Ok.item {c : Choice} (h : c.Ok) : savewordItem c.call.arg = .ok c.save.fields :=
  savewordItem_getArgStr ((argArray_free_iff h.shown).2 h.sepFree)

/-- The file is the document of the book, whose items are free of markup. -/
structure Holds (file : Option Str) (book : Option (List Save)) : Prop where
  file : file = book.map render
  safe : ∀ s ∈ book.getD [], s.Safe

theorem opens_iff (c : Choice) {file : Option Str} {book : Option (List Save)} (h : Holds file book) :
    c.opens book = true ↔ (⟨file, c.readable, c.writable, none⟩ : Disk).Opens := by
  rw [h.file]
  cases book <;> simp [Choice.opens, Disk.Opens]

theorem text_eq {file : Option Str} {book : Option (List Save)} (h : Holds file book) (readable writable : Bool) :
    (⟨file, readable, writable, none⟩ : Disk).text = render (book.getD []) := by
  rw [Disk.text, h.file]
  cases book <;> rfl

/-- A word whose pattern is refused empties the file. -/
theorem saveLocal_refused {c : Choice} (hr : c.Refused) {d : Disk} (hd : d.Opens) :
    (saveLocal c.save.fields d).2 = { d with file := some [] } := by
  obtain ⟨e, he⟩ := hr
  have hnot : ¬ ∃ xml, generateWordBook c.save.fields d.text = .ok xml := by
    rw [generateWordBook_ok]
    rintro ⟨p, hp⟩
    cases he.symm.trans hp
  rw [saveLocal_opens hd]
  cases hxml : generateWordBook c.save.fields d.text with
  | error e => rfl
  | ok xml => exact absurd ⟨xml, hxml⟩ hnot

theorem bookStep_holds {c : Choice} (hc : c.Ok) {file : Option Str} {book : Option (List Save)} (h : Holds file book) :
    Holds (savewordMain file c.call).1 (bookStep book c).1 ∧ (savewordMain file c.call).2 = (bookStep book c).2 := by
  unfold savewordMain
  rw [hc.item]
  have hnet : c.call.net = c.net := rfl
  simp only [hnet]
  cases hn : c.net.online with
  | error e =>
    have hsave : save c.net c.save.fields ⟨file, c.call.readable, c.call.writable, c.call.failsAt⟩ = .error e := by
      rw [save, hn]
      rfl
    simp only [hsave, bookStep, hn]
    exact ⟨h, trivial⟩
  | ok online =>
    cases online with
    | true =>
      have hsave : save c.net c.save.fields ⟨file, c.call.readable, c.call.writable, c.call.failsAt⟩ =
          .ok (onlineMessage, ⟨file, c.call.readable, c.call.writable, c.call.failsAt⟩) := by
        rw [save, hn]
        rfl
      simp only [hsave, bookStep, hn]
      exact ⟨h, trivial⟩
    | false =>
      have hlocal := save_local hn c.save.fields ⟨file, c.call.readable, c.call.writable, c.call.failsAt⟩
      simp only [hlocal, bookStep, hn, and_true]
      by_cases hopen : c.opens book = true
      · rw [if_pos hopen]
        have hd := (opens_iff c h).1 hopen
        by_cases hr : c.Refused
        · rw [if_pos hr]
          have hempty := saveLocal_refused hr hd
          refine ⟨?_, fun s hs => absurd hs List.not_mem_nil⟩
          exact congrArg Disk.file hempty
        · rw [if_neg hr]
          have hword : Plain c.save.word := hc.word.resolve_right hr
          have hput := saveLocal_render hd rfl (text_eq h _ _) h.safe hc.safe hword
          refine ⟨?_, fun s hs => ?_⟩
          · exact congrArg (fun r => r.2.file) hput
          · rcases List.mem_append.1 hs with hs | hs
            · exact h.safe s (List.mem_of_mem_filter hs)
            · rw [List.mem_singleton.1 hs]
              exact hc.safe
      · rw [if_neg hopen]
        have hd : ¬ (⟨file, c.readable, c.writable, none⟩ : Disk).Opens := fun hd => hopen ((opens_iff c h).2 hd)
        refine ⟨?_, h.safe⟩
        rw [← h.file]
        exact congrArg (fun r => r.2.file) (saveLocal_shut hd c.save.fields)

/-! ## Whole sessions -/

/-- No word is in the book twice, and its items were chosen while the online word book
refused them. -/
structure OnceEach (cs : List Choice) (book : Option (List Save)) : Prop where
  nodup : ((book.getD []).map Save.word).Nodup
  chosen : ∀ s ∈ book.getD [], ∃ c ∈ cs, s = c.save ∧ c.net.online = .ok false

theorem OnceEach.more {cs : List Choice} {book : Option (List Save)} (h : OnceEach cs book) (c : Choice) :
    OnceEach (cs ++ [c]) book :=
  ⟨h.nodup, fun s hs => (h.chosen s hs).imp fun _ hd => ⟨List.mem_append_left _ hd.1, hd.2⟩⟩

theorem OnceEach.put {cs : List Choice} {book : Option (List Save)} (h : OnceEach cs book) {c : Choice}
    (hn : c.net.online = .ok false) : OnceEach (cs ++ [c]) (some (put Save.word (book.getD []) c.save)) := by
  refine ⟨?_, fun s hs => ?_⟩
  · simp only [Option.getD_some, Latest.put, List.map_append, List.nodup_append]
    refine ⟨h.nodup.sublist (List.filter_sublist.map _), List.nodup_singleton _, fun w hw v hv => ?_⟩
    obtain ⟨s, hs, rfl⟩ := List.mem_map.1 hw
    obtain rfl := List.mem_singleton.1 hv
    simpa using (List.mem_filter.1 hs).2
  · rcases List.mem_append.1 hs with hs | hs
    · exact (h.more c).chosen s (List.mem_of_mem_filter hs)
    · exact ⟨c, List.mem_append_right _ (List.mem_singleton_self c), List.mem_singleton.1 hs, hn⟩

theorem bookStep_onceEach (cs : List Choice) (book : Option (List Save)) (c : Choice) (h : OnceEach cs book) :
    OnceEach (cs ++ [c]) (bookStep book c).1 := by
  unfold bookStep
  cases hn : c.net.online with
  | error e => exact h.more c
  | ok online =>
    cases online with
    | true => exact h.more c
    | false =>
      simp only
      split
      · split
        · exact ⟨List.nodup_nil, fun s hs => absurd hs List.not_mem_nil⟩
        · exact h.put hn
      · exact h.more c

/-- Over choices among the items that calls make themselves, with texts free of markup and
words that are taken as they are or refused, and whether or not the file can be opened:
the local file is the document of a book that has each word once. A refused word empties
it, and later choices fill it again. -/
theorem session_book {cs : List Choice} (h : ∀ c ∈ cs, c.Ok) :
    outputs (fun file (c : Choice) => savewordMain file c.call) none cs = outputs bookStep none cs ∧
      final (fun file (c : Choice) => savewordMain file c.call) none cs = (final bookStep none cs).map render ∧
      OnceEach cs (final bookStep none cs) := by
  have hstep : ∀ file book (c : Choice), c.Ok → Holds file book →
      Holds (savewordMain file c.call).1 (bookStep book c).1 ∧ (savewordMain file c.call).2 = (bookStep book c).2 :=
    fun _ _ _ hc hb => bookStep_holds hc hb
  have hnone : Holds none none := ⟨rfl, fun s hs => absurd hs List.not_mem_nil⟩
  obtain ⟨houts, hfinal⟩ := outputs_eq hstep hnone h
  have hempty : OnceEach [] none := ⟨List.nodup_nil, fun s hs => absurd hs List.not_mem_nil⟩
  exact ⟨houts, hfinal.file, final_invariant bookStep_onceEach hempty cs⟩

def lookup (word : String) (titles : List String) : Invocation :=
  ⟨false, word.toList, some ⟨"0".toList, translated (titles.map String.toList)⟩⟩

def chosen (word title : String) : Choice :=
  ⟨lookup word [title], ⟨title.toList, "翻译结果".toList, { query := word.toList, result := title.toList }, iconDefault⟩,
    offline, true, true⟩

/-- The second word is refused. -/
def someChoices : List Choice := [chosen "cat" "猫", chosen "c++" "C++", chosen "dog" "狗"]

theorem session_book_dog :
    final (fun file (c : Choice) => savewordMain file c.call) none someChoices =
      some (render [mainSave "dog".toList "狗".toList]) := by
  have hok : ∀ c ∈ someChoices, c.Ok := by
    intro c hc
    simp only [someChoices, List.mem_cons, List.not_mem_nil, or_false] at hc
    rcases hc with rfl | rfl | rfl
    · exact ⟨by decide +kernel, by decide, by decide, .inl (by decide)⟩
    · exact ⟨by decide +kernel, by decide, by decide, .inr ⟨.error "multiple repeat", by decide +kernel⟩⟩
    · exact ⟨by decide +kernel, by decide, by decide, .inl (by decide)⟩
  rw [(session_book hok).2.1]
  have hbook : final bookStep none someChoices = some [mainSave "dog".toList "狗".toList] := by
    have hcat : ¬ (chosen "cat" "猫").Refused := by decide +kernel
    have hcpp : (chosen "c++" "C++").Refused := by decide +kernel
    have hdog : ¬ (chosen "dog" "狗").Refused := by decide +kernel
    have hnet (word title : String) : (chosen word title).net.online = .ok false := rfl
    simp only [someChoices, final, bookStep, hnet, hcat, hcpp, hdog]
    rfl
  rw [hbook]
  rfl

end ProGuide.Youdao
