import ProGuide.Lib.Latest
import ProGuide.Lib.SreSteps
import ProGuide.Youdao.WordMatch
/-!
# What the local word book holds

A save is a write keyed by its word: for words the pattern parser reads as
themselves, the file is the text of the last save of each word. Where the
pattern of a word does not compile, or the new text cannot be written, the file has
already been emptied.
-/
open ProGuide.Lib ProGuide.Lib.Text ProGuide.Lib.Regex ProGuide.Lib.SreParse ProGuide.Lib.Latest

namespace ProGuide.Youdao

/-! ## The text of a book -/

/-- The items one after the other. -/
def items (book : List Save) : Str := book.flatMap (itemXml ·.fields)

/-- The text between the book's tags. -/
def document (body : Str) : Str := bookOpen ++ (body ++ bookClose)

/-- The content of the file: nothing before the first save. -/
def render : List Save → Str
  | [] => []
  | s :: ss => document (items (s :: ss))

theorem items_cons (s : Save) (book : List Save) : items (s :: book) = itemXml s.fields ++ items book := rfl

theorem items_append (book book' : List Save) : items (book ++ book') = items book ++ items book' :=
  List.flatMap_append

theorem render_put (book : List Save) (s : Save) : render (put Save.word book s) = document (items (put Save.word book s)) := by
  cases h : put Save.word book s with
  | nil => simp [put] at h
  | cons _ _ => rfl

/-- No item starts inside an item. -/
theorem noStart_itemTail {s : Save} (hs : s.Safe) (t : Str) :
    ∃ x, itemXml s.fields = '<' :: x ∧ NoStart itemOpen x t := by
  refine ⟨['i', 't', 'e', 'm', '>'] ++ (s.fields.flatMap fieldXml ++ itemClose), itemXml_eq _, ?_⟩
  rw [noStart_append, noStart_append]
  refine ⟨noStart_of_not_mem (by decide) _, Save.noStart_body hs (.inl rfl) _, ?_⟩
  rw [itemOpen_eq, itemClose_eq, itemEnd_eq]
  simp [NoStart, List.cons_prefix_cons]

/-- The book's end does not start in the items. -/
theorem noStart_items {book : List Save} (hb : ∀ s ∈ book, s.Safe) (t : Str) : NoStart bookClose (items book) t := by
  refine noStart_flatMap (fun s hs t => ?_) t
  rw [itemXml_eq, noStart_append, noStart_append]
  refine ⟨?_, Save.noStart_body (hb s hs) (.inr (.inr rfl)) _, ?_⟩
  · rw [itemOpen_eq, bookClose_eq]
    simp [NoStart, List.cons_prefix_cons]
  · rw [itemClose_eq, itemEnd_eq, bookClose_eq]
    simp [NoStart, List.cons_prefix_cons]

theorem bookOpen_eq : bookOpen = ['<', 'w', 'o', 'r', 'd', 'b', 'o', 'o', 'k', '>', '\n'] := rfl

/-! ## Substituting in a book -/

theorem startsWith_wordRe (w : Str) : StartsWith (run {} (wordRe w)) itemOpen := by
  rw [wordRe, headItems, List.append_assoc]
  exact startsWith_lits _ rfl _ _

/-- Over the items, the substitution drops those of the word and keeps the
others. -/
theorem sub_items {w : Str} (hw : '<' ∉ w) {book : List Save} (hb : ∀ s ∈ book, s.Safe) (tail : Str) (n : Nat)
    (b : Str) (adj : Bool) : ∃ k b' adj',
      subFrom (run {} (wordRe w)) [] ((items book).length + n) b (items book ++ tail) adj =
        items (book.filter (·.word ≠ w)) ++ subFrom (run {} (wordRe w)) [] (k + n) b' tail adj' := by
  induction book generalizing n b adj with
  | nil => exact ⟨0, b, adj, by simp [items]⟩
  | cons s book ih =>
    obtain ⟨hs, hb⟩ := List.forall_mem_cons.1 hb
    obtain ⟨x, hx, hstart⟩ := noStart_itemTail hs (items book ++ tail)
    have hlen : (items (s :: book)).length + n = (items book).length + (x.length + n) + 1 := by
      rw [items_cons, List.length_append, hx, List.length_cons]
      omega
    rw [items_cons, List.append_assoc, ← items_cons, hlen]
    by_cases hws : s.word = w
    · -- the item's match is dropped: of the fuel for its characters only one is used
      subst hws
      obtain ⟨ts, hts⟩ := run_item_eq hs b (items book ++ tail)
      obtain ⟨k, b', adj', h⟩ := ih hb (x.length + n) ((itemXml s.fields).reverse ++ b) true
      refine ⟨k + x.length, b', adj', ?_⟩
      rw [subFrom_match [] _ _ _ _ (by rw [hx]; exact List.cons_ne_nil _ _) _ hts, h]
      simp [Nat.add_assoc]
    · have hne := run_item_ne hs hw (Ne.symm hws) b (items book ++ tail)
      obtain ⟨adj1, hcopy⟩ := subFrom_copy [] ((startsWith_wordRe w).silent hstart) ((items book).length + n) ('<' :: b) false
      obtain ⟨k, b', adj', h⟩ := ih hb n (x.reverse ++ '<' :: b) adj1
      refine ⟨k, b', adj', ?_⟩
      rw [hx, List.cons_append] at hne ⊢
      rw [subFrom_skip [] hne, Nat.add_left_comm, hcopy, h]
      simp [items_cons, hws, hx]

/-- In a book, the substitution drops the items of the word. -/
theorem sub_document {w : Str} (hw : '<' ∉ w) {book : List Save} (hb : ∀ s ∈ book, s.Safe) :
    Regex.sub {} (wordRe w) [] (document (items book)) = document (items (book.filter (·.word ≠ w))) := by
  have hopen (t : Str) : NoStart itemOpen bookOpen t := by
    rw [itemOpen_eq, bookOpen_eq]
    simp [NoStart, List.cons_prefix_cons]
  have hclose (t : Str) : NoStart itemOpen bookClose t := by
    rw [itemOpen_eq, bookClose_eq]
    simp [NoStart, List.cons_prefix_cons]
  have hm := startsWith_wordRe w
  rw [Regex.sub, document, List.length_append, List.length_append, Nat.add_assoc, Nat.add_assoc]
  obtain ⟨adj, h1⟩ := subFrom_copy [] (hm.silent (hopen (items book ++ bookClose))) ((items book).length + (bookClose.length + 1)) [] false
  obtain ⟨k, b, adj', h2⟩ := sub_items hw hb bookClose (bookClose.length + 1) (bookOpen.reverse ++ []) adj
  obtain ⟨adj'', h3⟩ := subFrom_copy [] (hm.silent (hclose [])) (k + 1) b adj'
  rw [h1, h2, ← Nat.add_assoc, Nat.add_comm k, Nat.add_assoc]
  rw [List.append_nil] at h3
  rw [h3, subFrom_end [] (hm.at_end (List.cons_ne_nil _ _) _), List.append_nil, document]

/-! ## One save -/

theorem sub_plain {w : Str} (hp : Plain w) (text : Str) :
    SreParse.sub (wordPattern w) [] text = .ok (Regex.sub {} (wordRe w) [] text) := by
  rw [SreParse.sub, compile_wordPattern hp]
  rfl

/-- Taking the book's end away and putting it back leaves the document. -/
theorem close_document {book : List Save} (hb : ∀ s ∈ book, s.Safe) :
    contains bookClose (document (items book)) = true ∧
      replaceAll bookClose [] (document (items book)) = bookOpen ++ items book := by
  have hne : bookClose ≠ [] := List.cons_ne_nil _ _
  have hfree : ¬ bookClose <:+: bookOpen ++ items book := by
    refine NoStart.not_infix hne ?_
    rw [noStart_append]
    refine ⟨?_, noStart_items hb []⟩
    rw [bookClose_eq, bookOpen_eq]
    simp [NoStart, List.cons_prefix_cons]
  have hu : Unbordered bookClose := unbordered_cons (by decide)
  have hjoin : document (items book) = bookClose.intercalate [bookOpen ++ items book, []] := by
    simp [document]
  refine ⟨contains_iff.2 ⟨bookOpen ++ items book, [], by simp [document]⟩, ?_⟩
  rw [replaceAll, hjoin, split_join hne hu _ (List.cons_ne_nil _ _) (by simpa [hne] using hfree)]
  simp

/-- A plain word's save on a book takes the place of the word's item. -/
theorem generateWordBook_render {book : List Save} {s : Save} (hb : ∀ s ∈ book, s.Safe) (hs : s.Safe)
    (hp : Plain s.word) : generateWordBook s.fields (render book) = .ok (render (put Save.word book s)) := by
  simp only [generateWordBook, s.lookup_word, sub_plain hp, render_put]
  cases book with
  | nil =>
    have hsub : Regex.sub {} (wordRe s.word) [] [] = [] :=
      subFrom_end [] ((startsWith_wordRe s.word).at_end (List.cons_ne_nil _ _) _) _ _
    have hclose : contains bookClose [] = false := rfl
    simp only [render, hsub, hclose, Bool.false_eq_true, if_false]
    simp [document, put, items]
  | cons t book =>
    have hfilter : ∀ u ∈ (t :: book).filter (·.word ≠ s.word), u.Safe := fun u hu => hb u (List.mem_of_mem_filter hu)
    obtain ⟨hmem, hreplace⟩ := close_document hfilter
    simp only [render, sub_document hs.1.1 hb, hmem, hreplace, if_true]
    simp [document, put, items]

/-! ## Runs -/

/-- Every save of a run leaves the last save of each word. -/
theorem saveAll_render {done : List Save} (hdone : ∀ s ∈ done, s.Safe) {saves : List Save}
    (hs : ∀ s ∈ saves, s.Safe) (hp : ∀ s ∈ saves, Plain s.word) :
    saveAll saves (render (latest Save.word done)) = .ok (render (latest Save.word (done ++ saves))) := by
  induction saves generalizing done with
  | nil => rw [List.append_nil]; rfl
  | cons s saves ih =>
    obtain ⟨hs0, hs⟩ := List.forall_mem_cons.1 hs
    obtain ⟨hp0, hp⟩ := List.forall_mem_cons.1 hp
    have hstep := generateWordBook_render (fun t ht => hdone t ((latest_sublist Save.word done).subset ht)) hs0 hp0
    have hdone' : ∀ t ∈ done ++ [s], t.Safe := by
      intro t ht
      rcases List.mem_append.1 ht with ht | ht
      · exact hdone t ht
      · exact List.mem_singleton.1 ht ▸ hs0
    rw [saveAll, hstep, ← latest_append]
    have hrest := ih hdone' hs hp
    rw [List.append_assoc] at hrest
    exact hrest

/-- The items are the last saves of the words saved, one for each word, in the
order of those saves. -/
structure LastSaves (saves book : List Save) : Prop where
  one_each : (book.map Save.word).Nodup
  same_words : ∀ w, w ∈ book.map Save.word ↔ w ∈ saves.map Save.word
  last_save : ∀ s ∈ book, ∃ pre post, saves = pre ++ s :: post ∧ s.word ∉ post.map Save.word
  in_order : book.Pairwise fun s t => ∃ pre post, saves = pre ++ t :: post ∧
    t.word ∉ post.map Save.word ∧ s.word ∉ (t :: post).map Save.word

theorem lastSaves_latest (saves : List Save) : LastSaves saves (latest Save.word saves) where
  one_each := latest_nodup _ _
  same_words := mem_latest_key _ _
  last_save _ hs := mem_latest _ hs
  in_order := latest_pairwise _ _

/-- At every point of a run from an empty file, the file is the document of the
last saves, and the next save takes the place of the item of its word alone. -/
def KeepsLastSaves (saves : List Save) : Prop :=
  ∀ done rest, saves = done ++ rest → ∃ book, saveAll done [] = .ok (render book) ∧ LastSaves done book ∧
    ∀ s ∈ rest.head?, saveAll (done ++ [s]) [] = .ok (render (book.filter (·.word ≠ s.word) ++ [s]))

/-- A run of saves whose words the pattern parser reads as themselves keeps the
last save of each word. -/
theorem saves_keep_last {saves : List Save} (hs : ∀ s ∈ saves, s.Safe) (hp : ∀ s ∈ saves, Plain s.word) :
    KeepsLastSaves saves := by
  rintro done rest rfl
  have hrun (ss : List Save) (hsub : ∀ s ∈ ss, s ∈ done ++ rest) :
      saveAll ss [] = .ok (render (latest Save.word ss)) := by
    have hnil : ∀ s ∈ ([] : List Save), s.Safe := fun s hs => absurd hs List.not_mem_nil
    exact saveAll_render hnil (fun s h => hs s (hsub s h)) fun s h => hp s (hsub s h)
  refine ⟨latest Save.word done, hrun done fun s h => List.mem_append_left _ h, lastSaves_latest done, fun s hs => ?_⟩
  have hmem : s ∈ rest := List.mem_of_mem_head? hs
  rw [hrun (done ++ [s]), latest_append]
  · rfl
  · intro t ht
    rcases List.mem_append.1 ht with ht | ht
    · exact List.mem_append_left _ ht
    · exact List.mem_append_right _ (List.mem_singleton.1 ht ▸ hmem)

/-- A save with its fields in the order of the source. -/
def mainSave (word trans : Str) : Save := ⟨word, trans, mainItem word trans, List.Perm.refl _⟩

def saveCat : Save := mainSave "cat".toList "n. 猫".toList

def saveDot : Save := mainSave "c.t".toList "abbr. 计算机断层".toList

theorem saves_keep_last_cat : (∀ s ∈ [saveCat, saveCat], s.Safe) ∧ KeepsLastSaves [saveCat, saveCat] := by
  have hsafe : saveCat.Safe := by decide
  have hs : ∀ s ∈ [saveCat, saveCat], s.Safe := by simp [hsafe]
  have hplain : Plain saveCat.word := by decide
  exact ⟨hs, saves_keep_last hs (by simp [hplain])⟩

theorem itemXml_ne_nil (d : Dict) : itemXml d ≠ [] := by
  rw [itemXml_eq]
  exact List.cons_ne_nil _ _

/-- A book with an item has a longer text than without. -/
theorem render_ne {book : List Save} (hb : book ≠ []) (s : Save) : render (book ++ [s]) ≠ render [s] := by
  intro h
  obtain ⟨t, book, rfl⟩ := List.exists_cons_of_ne_nil hb
  have hlen := congrArg List.length h
  have hpos := List.length_pos_iff.2 (itemXml_ne_nil t.fields)
  simp only [List.cons_append, render, document, items_cons, items_append, List.length_append] at hlen
  omega

/-- The pattern of `c.t` also matches the item of `cat`, which goes. -/
theorem saves_lose_cat : (∀ s ∈ [saveCat, saveDot], s.Safe) ∧
    saveAll [saveCat, saveDot] [] = .ok (render [saveDot]) ∧ ¬ KeepsLastSaves [saveCat, saveDot] := by
  have hcat : saveCat.Safe := by decide
  have hdot : saveDot.Safe := by decide
  have hrun : saveAll [saveCat, saveDot] [] = .ok (render [saveDot]) := by decide +kernel
  refine ⟨by simp [hcat, hdot], hrun, fun h => ?_⟩
  obtain ⟨book, -, hbook, hnext⟩ := h [saveCat] [saveDot] rfl
  have hlost := hnext saveDot rfl
  rw [List.singleton_append, hrun, Except.ok.injEq] at hlost
  refine render_ne ?_ saveDot hlost.symm
  -- the item of `cat` was there, and is not of the word saved
  obtain ⟨s, hs, hw⟩ := List.mem_map.1 ((hbook.same_words saveCat.word).2 List.mem_cons_self)
  have hne : s.word ≠ saveDot.word := by
    rw [hw]
    decide
  exact List.ne_nil_of_mem (List.mem_filter.2 ⟨hs, by simpa using hne⟩)

/-! ## Failed saves -/

/-- `saveLocal` returns `0`, the new text is stored and the message of a local
save is printed. -/
def Stored (net : Net) (item : Dict) (d : Disk) : Prop :=
  (saveLocal item d).1 = none ∧ ∃ xml, generateWordBook item d.text = .ok xml ∧
    save net item d = .ok (localMessage, { d with file := some xml })

/-- `saveLocal` returns an exception, the file is as it was, and the message of a
local save is not printed. -/
def Refused (net : Net) (item : Dict) (d : Disk) : Prop :=
  (saveLocal item d).1.isSome ∧ ∃ message d', save net item d = .ok (message, d') ∧ d'.file = d.file ∧
    message ≠ localMessage

/-- Whatever `saveLocal` returns, `save` prints the message of a local save. -/
theorem save_local {net : Net} (hn : net.online = .ok false) (item : Dict) (d : Disk) :
    save net item d = .ok (localMessage, (saveLocal item d).2) := by
  rw [save, hn]
  rfl

theorem not_refused {net : Net} (hn : net.online = .ok false) (item : Dict) (d : Disk) : ¬ Refused net item d := by
  rintro ⟨-, message, d', hsave, -, hmessage⟩
  rw [save_local hn, Except.ok.injEq, Prod.mk.injEq] at hsave
  exact hmessage hsave.1.symm

/-- The new text is computed exactly when the word's pattern compiles. -/
theorem generateWordBook_ok (s : Save) (text : Str) :
    (∃ xml, generateWordBook s.fields text = .ok xml) ↔ ∃ p, compile (wordPattern s.word) = .ok p := by
  cases hc : compile (wordPattern s.word) with
  | error e =>
    have hsub : SreParse.sub (wordPattern s.word) [] text = .error e := by
      rw [SreParse.sub, hc]
      rfl
    simp [generateWordBook, s.lookup_word, hsub]
  | ok p =>
    have hsub : SreParse.sub (wordPattern s.word) [] text = .ok (Regex.sub p.1 p.2 [] text) := by
      rw [SreParse.sub, hc]
      rfl
    simp [generateWordBook, s.lookup_word, hsub]

/-- The pattern made of the word breaks a rule of the pattern syntax; a parser that ran
out of steps would not say so. -/
def Malformed (w : Str) : Prop := ∃ r, r ≠ outOfSteps ∧ compile (wordPattern w) = .error r

/-- There is a new text unless the word's pattern breaks a rule. -/
theorem generateWordBook_iff (s : Save) (text : Str) :
    (∃ xml, generateWordBook s.fields text = .ok xml) ↔ ¬ Malformed s.word := by
  rw [generateWordBook_ok]
  cases hc : compile (wordPattern s.word) with
  | ok p =>
    have hfine : ¬ Malformed s.word := by
      rintro ⟨r, -, hr⟩
      cases hc.symm.trans hr
    simp [hfine]
  | error r =>
    have hr : r ≠ outOfSteps := by
      rintro rfl
      exact compile_ne_outOfSteps _ hc
    have hbad : Malformed s.word := ⟨r, hr, hc⟩
    simp [hbad]

/-- A disk `saveLocal` can open the file on, for reading when it is there. -/
def Disk.Opens (d : Disk) : Prop := d.writable = true ∧ (d.file.isSome = true → d.readable = true)

theorem saveLocal_opens {d : Disk} (hd : d.Opens) (item : Dict) : saveLocal item d =
    match generateWordBook item d.text with
    | .error e => (some e, { d with file := some [] })
    | .ok xml => writeOut xml d := by
  have hread : (d.file.isSome && !d.readable) = false := by
    cases hf : d.file.isSome
    · rfl
    · simp [hd.2 hf]
  cases hxml : generateWordBook item d.text <;> simp [saveLocal, hread, hd.1, hxml]

theorem saveLocal_shut {d : Disk} (hd : ¬ d.Opens) (item : Dict) : saveLocal item d = (some .ioError, d) := by
  unfold saveLocal
  split
  · rfl
  · next hread =>
    rw [if_pos]
    simp only [Disk.Opens, not_and, not_forall] at hd
    simp only [Bool.and_eq_true, Bool.not_eq_true', not_and, Bool.not_eq_false] at hread
    by_contra hw
    obtain ⟨hf, hr⟩ := hd (by simpa using hw)
    exact hr (hread hf)

theorem writeOut_ok {d : Disk} (hw : d.failsAt = none) (xml : Str) : writeOut xml d = (none, { d with file := some xml }) := by
  rw [writeOut, hw]

/-- `0` is returned only when every character of the new text was written. -/
theorem writeOut_none {d : Disk} {xml : Str} (h : (writeOut xml d).1 = none) : d.failsAt = none := by
  cases hw : d.failsAt with
  | none => rfl
  | some n =>
    rw [writeOut, hw] at h
    cases h

/-- Where the file opens and takes the text, the save of a plain word is the next state
of the book. -/
theorem saveLocal_render {book : List Save} {s : Save} {d : Disk} (hd : d.Opens) (hw : d.failsAt = none)
    (htext : d.text = render book) (hb : ∀ s ∈ book, s.Safe) (hs : s.Safe) (hp : Plain s.word) :
    saveLocal s.fields d = (none, { d with file := some (render (put Save.word book s)) }) := by
  rw [saveLocal_opens hd, htext, generateWordBook_render hb hs hp]
  exact writeOut_ok hw _

/-- Exactly one of the two outcomes. -/
def AllOrNothing (net : Net) (item : Dict) (d : Disk) : Prop := Xor (Stored net item d) (Refused net item d)

/-- A save that falls back to the local book is all or nothing exactly when the
file opens, takes all of the new text, and the pattern built from the word breaks no
rule. -/
theorem save_all_or_nothing_iff {net : Net} (hn : net.online = .ok false) (s : Save) (d : Disk) :
    AllOrNothing net s.fields d ↔ d.Opens ∧ d.failsAt = none ∧ ¬ Malformed s.word := by
  have hxor : AllOrNothing net s.fields d ↔ Stored net s.fields d := by
    simp [AllOrNothing, Xor, not_refused hn]
  rw [hxor, ← generateWordBook_iff s d.text]
  constructor
  · rintro ⟨hzero, xml, hxml, -⟩
    have hd : d.Opens := by
      by_contra hd
      rw [saveLocal_shut hd] at hzero
      cases hzero
    rw [saveLocal_opens hd, hxml] at hzero
    exact ⟨hd, writeOut_none hzero, xml, hxml⟩
  · rintro ⟨hd, hw, xml, hxml⟩
    have hlocal : saveLocal s.fields d = (none, { d with file := some xml }) := by
      rw [saveLocal_opens hd, hxml]
      exact writeOut_ok hw xml
    refine ⟨?_, xml, hxml, ?_⟩
    · rw [hlocal]
    · rw [save_local hn, hlocal]

/-- The online word book refuses the save and the login. -/
def offline : Net := ⟨.ok false, .ok false, .ok false⟩

theorem save_all_or_nothing_cat : AllOrNothing offline saveCat.fields ⟨some (render [saveDot]), true, true, none⟩ := by
  have hcat : Plain saveCat.word := by decide
  refine (save_all_or_nothing_iff rfl saveCat _).2 ⟨⟨rfl, fun _ => rfl⟩, rfl, ?_⟩
  rintro ⟨r, -, hr⟩
  cases (compile_wordPattern hcat).symm.trans hr

def saveCpp : Save := mainSave "c++".toList "n. C++".toList

/-- Saving `c++` empties a book, and prints that it was saved. -/
theorem save_cpp_empties :
    save offline saveCpp.fields ⟨some (render [saveCat]), true, true, none⟩ = .ok (localMessage, ⟨some [], true, true, none⟩) ∧
      ¬ AllOrNothing offline saveCpp.fields ⟨some (render [saveCat]), true, true, none⟩ := by
  have hfail (text : Str) : generateWordBook saveCpp.fields text = .error (.re (.error "multiple repeat")) := by
    have hc : compile (wordPattern saveCpp.word) = .error (.error "multiple repeat") := by decide +kernel
    have hsub : SreParse.sub (wordPattern saveCpp.word) [] text = .error (.error "multiple repeat") := by
      rw [SreParse.sub, hc]
      rfl
    simp only [generateWordBook, saveCpp.lookup_word, hsub]
  have hlocal : saveLocal saveCpp.fields ⟨some (render [saveCat]), true, true, none⟩ =
      (some (.re (.error "multiple repeat")), ⟨some [], true, true, none⟩) := by
    rw [saveLocal, hfail]
    rfl
  have hsave := @save_local offline rfl saveCpp.fields ⟨some (render [saveCat]), true, true, none⟩
  rw [hlocal] at hsave
  refine ⟨hsave, ?_⟩
  rintro (⟨⟨hzero, -⟩, -⟩ | ⟨hrefused, -⟩)
  · rw [hlocal] at hzero
    cases hzero
  · exact not_refused rfl _ _ hrefused

end ProGuide.Youdao
