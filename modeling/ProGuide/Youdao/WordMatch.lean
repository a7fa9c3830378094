import Mathlib.Data.List.Nodup
import ProGuide.Lib.RegexRules
import ProGuide.Lib.SreRules
import ProGuide.Youdao.WordBook
/-!
# What the pattern of a plain word matches

For a word the pattern parser reads as its own characters, the pattern compiles
to `wordRe`, and `wordRe` matches an item exactly when the item's word is that
word.
-/
open ProGuide.Lib ProGuide.Lib.Text ProGuide.Lib.Regex ProGuide.Lib.SreParse

namespace ProGuide.Youdao

/-! ## The compiled pattern -/

/-- Any character, as `[\s\S]`. -/
def anyChar : Re := .set false [.category false .space, .category true .space]

def itemEnd : Str := "</item>".toList

def wordOpen : Str := "<word>".toList

def wordClose : Str := "</word>".toList

/-- One character of an item, as `(?:(?!<\/item>)[\s\S])`. -/
def itemChar : Re := .group none (catAll [.look false true (lits itemEnd), anyChar])

def headItems : List Re := itemOpen.map .lit ++ (.rep true 0 none itemChar :: wordOpen.map .lit)

def tailItems : List Re := wordClose.map .lit ++ (.rep false 0 none anyChar :: itemClose.map .lit)

/-- The expression of a plain word's pattern. -/
def wordRe (w : Str) : Re := catAll (headItems ++ (w.map .lit ++ tailItems))

theorem parse_head (n : Nat) (s : List Char) :
    parse (n + 42) (patternHead ++ s) {} [] = parse (n + 28) s {} headItems.reverse := rfl

theorem parse_closeWord (n : Nat) (s : List Char) (acc : List Re) :
    parse (n + 42) ("<\\/word>".toList ++ s) {} acc = parse (n + 35) s {} ((wordClose.map Re.lit).reverse ++ acc) := rfl

theorem parse_anything (n : Nat) (s : List Char) (acc : List Re) :
    parse (n + 35) ("[\\s\\S]*?".toList ++ s) {} acc = parse (n + 33) s {} (.rep false 0 none anyChar :: acc) := rfl

theorem parse_closeItem (n : Nat) (s : List Char) (acc : List Re) :
    parse (n + 33) ("<\\/item>\n".toList ++ s) {} acc = parse (n + 25) s {} ((itemClose.map Re.lit).reverse ++ acc) := rfl

theorem patternTail_eq :
    patternTail = "<\\/word>".toList ++ ("[\\s\\S]*?".toList ++ ("<\\/item>\n".toList ++ [])) := rfl

theorem parse_tail (n : Nat) (acc : List Re) :
    parse (n + 42) patternTail {} acc = .ok (acc.reverse ++ tailItems, [], {}) := by
  have horder : ((itemClose.map Re.lit).reverse ++
      .rep false 0 none anyChar :: ((wordClose.map Re.lit).reverse ++ acc)).reverse = acc.reverse ++ tailItems := by
    simp [tailItems]
  rw [patternTail_eq, parse_closeWord, parse_anything, parse_closeItem, parse_end, horder]

theorem refused_catAll (fl : Flags) (g : Nat) (rs rs' : List Re) :
    refused fl g (catAll (rs ++ rs')) = (refused fl g (catAll rs)).or (refused fl g (catAll rs')) := by
  induction rs with
  | nil => rfl
  | cons r rs ih => simp [catAll, refused, ih, Option.or_assoc]

theorem refused_lits (fl : Flags) (g : Nat) (w : Str) : refused fl g (catAll (w.map .lit)) = none := by
  induction w with
  | nil => rfl
  | cons c w ih => simpa [catAll, refused] using ih

theorem refused_wordRe (w : Str) : refused {} 1 (wordRe w) = none := by
  have hhead : refused {} 1 (catAll headItems) = none := by decide
  have htail : refused {} 1 (catAll tailItems) = none := by decide
  simp only [wordRe, refused_catAll, refused_lits, hhead, htail, Option.or_none]

/-- The pattern of a plain word compiles to its expression. -/
theorem compile_wordPattern {w : Str} (hw : Plain w) : compile (wordPattern w) = .ok ({}, wordRe w) := by
  have hpat : wordPattern w = patternHead ++ (w ++ patternTail) := by rw [wordPattern, List.append_assoc]
  have hlen : 2 * (wordPattern w).length + 3 = (2 * w.length + 80 + 42) + 1 := by
    have h1 : patternHead.length = 35 := rfl
    have h2 : patternTail.length = 25 := rfl
    simp only [hpat, List.length_append, h1, h2]
    omega
  have hword : parse (2 * w.length + 80 + 28) (w ++ patternTail) {} headItems.reverse =
      parse (w.length + 66 + 42) patternTail {} ((w.map .lit).reverse ++ headItems.reverse) := by
    have hsteps : 2 * w.length + 80 + 28 = w.length + (w.length + 66 + 42) := by omega
    rw [hsteps]
    exact parse_plain rfl rfl (by decide) (by decide) hw _ _ _
  have hparse : parse (2 * w.length + 80 + 42) (wordPattern w) {} [] =
      .ok (headItems ++ (w.map .lit ++ tailItems), [], {}) := by
    rw [hpat, parse_head, hword, parse_tail]
    simp
  have hsub : parseSub (2 * (wordPattern w).length + 3) (wordPattern w) {} = .ok (wordRe w, [], {}) := by
    rw [hlen, parseSub, hparse]
    rfl
  have hall : parseAll {} (wordPattern w) = .ok (wordRe w, {}) := by
    rw [parseAll, hsub]
    rfl
  rw [compile, hall]
  simp [bind, Except.bind, refused_wordRe, pure, Except.pure]

/-! ## The text of a stored item -/

/-- Neither a tag nor the end of a literal section is in the text. -/
def Safe (t : Str) : Prop := '<' ∉ t ∧ '>' ∉ t ∧ ¬ "]]>".toList <:+: t

instance (t : Str) : Decidable (Safe t) := inferInstanceAs (Decidable (_ ∧ _ ∧ _))

def Save.Safe (s : Save) : Prop := Youdao.Safe s.word ∧ Youdao.Safe s.trans

instance (s : Save) : Decidable s.Safe := inferInstanceAs (Decidable (_ ∧ _))

/-- The keys of an item. -/
def keys : List Str := [wordKey, "trans".toList, "tags".toList, "progress".toList]

theorem keys_eq : keys = [['w', 'o', 'r', 'd'], ['t', 'r', 'a', 'n', 's'], ['t', 'a', 'g', 's'],
    ['p', 'r', 'o', 'g', 'r', 'e', 's', 's']] := rfl

theorem itemOpen_eq : itemOpen = ['<', 'i', 't', 'e', 'm', '>'] := rfl

theorem itemEnd_eq : itemEnd = ['<', '/', 'i', 't', 'e', 'm', '>'] := rfl

theorem bookClose_eq : bookClose = ['<', '/', 'w', 'o', 'r', 'd', 'b', 'o', 'o', 'k', '>'] := rfl

theorem wordOpen_eq : wordOpen = ['<', 'w', 'o', 'r', 'd', '>'] := rfl

/-- A field after its first character. -/
def fieldTail (f : Str × Str) : Str := f.1 ++ '>' :: (fieldValue f ++ '<' :: '/' :: (f.1 ++ ['>', '\n']))

theorem fieldXml_eq (f : Str × Str) : fieldXml f = '<' :: fieldTail f := by
  unfold fieldXml
  simp only [List.append_assoc]
  rfl

theorem noStart_fieldValue {z : Str} (hz : ∀ u, ¬ z <+: '!' :: u) {f : Str × Str} (hv : '<' ∉ f.2) (t : Str) :
    NoStart ('<' :: z) (fieldValue f) t := by
  unfold fieldValue
  split
  · rw [noStart_append, noStart_append]
    exact ⟨⟨⟨fun h => hz _ (List.cons_prefix_cons.1 h).2, noStart_of_not_mem (by decide) _⟩,
      noStart_of_not_mem hv _⟩, noStart_of_not_mem (by decide) _⟩
  · exact noStart_of_not_mem hv _

theorem noStart_fieldTail {z : Str} {f : Str × Str} (hk : '<' ∉ f.1) (hv : '<' ∉ f.2)
    (h2 : ∀ u, ¬ z <+: '!' :: u) (h3 : ∀ u, ¬ z <+: '/' :: (f.1 ++ '>' :: u)) (t : Str) :
    NoStart ('<' :: z) (fieldTail f) t := by
  rw [fieldTail, noStart_append]
  refine ⟨noStart_of_not_mem hk _, fun h => absurd (List.cons_prefix_cons.1 h).1 (by decide), ?_⟩
  rw [noStart_append]
  refine ⟨noStart_fieldValue h2 hv _, fun h => ?_, noStart_of_not_mem (by simp [hk]) _⟩
  refine h3 ('\n' :: t) ?_
  simpa using (List.cons_prefix_cons.1 h).2

/-- A text that opens with `<` starts in a field at most where a tag does. -/
theorem noStart_fieldXml {z : Str} {f : Str × Str} (hk : '<' ∉ f.1) (hv : '<' ∉ f.2)
    (h1 : ∀ u, ¬ z <+: f.1 ++ '>' :: u) (h2 : ∀ u, ¬ z <+: '!' :: u) (h3 : ∀ u, ¬ z <+: '/' :: (f.1 ++ '>' :: u))
    (t : Str) : NoStart ('<' :: z) (fieldXml f) t := by
  rw [fieldXml_eq]
  refine ⟨fun h => h1 (fieldValue f ++ '<' :: '/' :: (f.1 ++ ['>', '\n']) ++ t) ?_, noStart_fieldTail hk hv h2 h3 t⟩
  simpa [fieldTail] using (List.cons_prefix_cons.1 h).2

/-- No item or book tag starts in a field. -/
theorem noStart_tag {z : Str} (hz : z = itemOpen ∨ z = itemEnd ∨ z = bookClose) {f : Str × Str} (hk : f.1 ∈ keys)
    (hv : '<' ∉ f.2) (t : Str) : NoStart z (fieldXml f) t := by
  rw [itemOpen_eq, itemEnd_eq, bookClose_eq] at hz
  simp only [keys_eq, List.mem_cons, List.not_mem_nil, or_false] at hk
  rcases hz with rfl | rfl | rfl <;>
    refine noStart_fieldXml ?_ hv ?_ ?_ ?_ t <;> rcases hk with h | h | h | h <;> simp [h, List.cons_prefix_cons]

/-- The word's tag does not start in another field. -/
theorem noStart_wordOpen {f : Str × Str} (hk : f.1 ∈ keys) (hw : f.1 ≠ wordKey) (hv : '<' ∉ f.2) (t : Str) :
    NoStart wordOpen (fieldXml f) t := by
  have hw' : f.1 ≠ ['w', 'o', 'r', 'd'] := hw
  rw [wordOpen_eq]
  simp only [keys_eq, List.mem_cons, List.not_mem_nil, or_false, hw', false_or] at hk
  refine noStart_fieldXml ?_ hv ?_ ?_ ?_ t <;> rcases hk with h | h | h <;> simp [h, List.cons_prefix_cons]

namespace Save

variable {s : Save}

theorem mem_fields (hs : s.Safe) {f : Str × Str} (hf : f ∈ s.fields) : f.1 ∈ keys ∧ '<' ∉ f.2 := by
  have hm := s.emitted.subset hf
  simp only [mainItem, List.mem_cons, List.not_mem_nil, or_false] at hm
  rcases hm with rfl | rfl | rfl | rfl
  · exact ⟨by simp [keys], hs.1.1⟩
  · exact ⟨by simp [keys], hs.2.1⟩
  · exact ⟨by simp [keys], by decide⟩
  · exact ⟨by simp [keys], by decide⟩

theorem keys_nodup (s : Save) : (s.fields.map Prod.fst).Nodup := by
  rw [(s.emitted.map Prod.fst).nodup_iff]
  show keys.Nodup
  decide

/-- The word's field, with the fields before and after it. -/
theorem fields_split (s : Save) : ∃ d1 d2, s.fields = d1 ++ (wordKey, s.word) :: d2 ∧
    ∀ f ∈ d1 ++ d2, f.1 ≠ wordKey := by
  have hm : (wordKey, s.word) ∈ s.fields := s.emitted.symm.subset List.mem_cons_self
  obtain ⟨d1, d2, hd⟩ := List.append_of_mem hm
  refine ⟨d1, d2, hd, fun f hf he => ?_⟩
  have hn := s.keys_nodup
  rw [hd, List.map_append, List.map_cons, List.nodup_middle, List.nodup_cons, ← List.map_append] at hn
  exact hn.1 (List.mem_map.2 ⟨f, hf, he⟩)

theorem lookup_word (s : Save) : s.fields.lookup wordKey = some s.word := by
  obtain ⟨d1, d2, hd, hne⟩ := s.fields_split
  rw [hd, List.lookup_append, List.lookup_eq_none_iff.2, Option.none_or]
  · exact List.lookup_cons_self
  · intro f hf
    simpa using (hne f (List.mem_append_left _ hf)).symm

/-- No item or book tag starts in the fields of an item. -/
theorem noStart_body (hs : s.Safe) {z : Str} (hz : z = itemOpen ∨ z = itemEnd ∨ z = bookClose) (t : Str) :
    NoStart z (s.fields.flatMap fieldXml) t :=
  noStart_flatMap (fun _ hf => noStart_tag hz (mem_fields hs hf).1 (mem_fields hs hf).2) t

end Save

/-! ## Matching a stored item -/

theorem run_itemEnd_guard : OneChar (run {} itemChar) (fun s => ¬ itemEnd <+: s) := by
  have hrun (b a : Str) (k) : run {} itemChar ⟨b, a, k⟩ =
      (if itemEnd <+: a then [] else [⟨b, a, k⟩]).flatMap (run {} anyChar) := by
    have hlook : run {} (.look false true (lits itemEnd)) ⟨b, a, k⟩ = if itemEnd <+: a then [] else [⟨b, a, k⟩] := by
      by_cases hp : itemEnd <+: a
      · obtain ⟨a', rfl⟩ := hp
        simp [run, run_lits]
      · simp [run, run_lits_none _ _ hp, hp]
    show ((run {} (.look false true (lits itemEnd)) ⟨b, a, k⟩).flatMap fun s => (run {} anyChar s).flatMap _) = _
    rw [hlook]
    refine List.flatMap_congr fun t _ => ?_
    show (run {} anyChar t).flatMap (fun s => [s]) = _
    simp
  refine ⟨fun b k => ?_, fun b c a k => ?_⟩
  · rw [hrun, if_neg (by rw [itemEnd_eq]; simp)]
    rfl
  · rw [hrun]
    by_cases hp : itemEnd <+: c :: a
    · simp [hp]
    · simp [hp, anyChar, run, St.eat, Item.holds]

theorem run_anyChar : OneChar (run {} anyChar) (fun _ => true) := by
  refine ⟨fun b k => rfl, fun b c a k => ?_⟩
  simp [anyChar, run, St.eat, Item.holds]

/-- The part of the expression after the item's opening and the characters
before the word. -/
def wordPart (w : Str) : Re := catAll (wordOpen.map .lit ++ (w.map .lit ++ tailItems))

/-- From an item on, the expression tries the word's part at every place in the
item, the furthest first. -/
theorem run_wordRe (w b a : Str) (k) : run {} (wordRe w) ⟨b, itemOpen ++ a, k⟩ =
    (walk (fun s => ¬ itemEnd <+: s) k (itemOpen.reverse ++ b) a).reverse.flatMap (run {} (wordPart w)) := by
  rw [wordRe, headItems, List.append_assoc, run_lits_append _ rfl, List.cons_append, run_catAll_cons, run_greedy _ run_itemEnd_guard]
  rfl

/-- The word's part matches only at the word's tag. -/
theorem run_wordPart_none {w a : Str} (ha : ¬ wordOpen <+: a) (b : Str) (k) : run {} (wordPart w) ⟨b, a, k⟩ = [] := by
  rw [wordPart]
  exact run_lits_append_none _ rfl ha b k _

/-- At the word's tag, another word makes the match fail. -/
theorem run_wordPart_ne {w v : Str} (hw : '<' ∉ w) (hv : '<' ∉ v) (hne : w ≠ v) (b a : Str) (k) :
    run {} (wordPart w) ⟨b, wordOpen ++ (v ++ (wordClose ++ a)), k⟩ = [] := by
  have hp : ¬ w ++ wordClose <+: v ++ (wordClose ++ a) := fun h => hne (eq_of_prefix_delim hw hv h)
  rw [wordPart, run_lits_append _ rfl, tailItems, ← List.append_assoc, ← List.map_append]
  exact run_lits_append_none _ rfl hp _ k _

/-- At the word's tag, the same word matches up to the end of the item. -/
theorem run_wordPart_eq (w b y rest : Str) (hy : NoStart itemClose y (itemClose ++ rest)) (k) :
    ∃ ts, run {} (wordPart w) ⟨b, wordOpen ++ (w ++ (wordClose ++ (y ++ (itemClose ++ rest)))), k⟩ =
      ⟨(wordOpen ++ (w ++ (wordClose ++ (y ++ itemClose)))).reverse ++ b, rest, k⟩ :: ts := by
  obtain ⟨ts, hts⟩ := walk_lits {} rfl hy (wordClose.reverse ++ (w.reverse ++ (wordOpen.reverse ++ b))) k
  refine ⟨ts, ?_⟩
  rw [wordPart, run_lits_append _ rfl, run_lits_append _ rfl, tailItems, run_lits_append _ rfl, run_catAll_cons,
    run_lazy _ run_anyChar]
  rw [lits] at hts
  rw [hts]
  simp

/-- The word's field starts with the word's tag, which starts nowhere else in it. -/
theorem fieldXml_word (w : Str) :
    fieldXml (wordKey, w) = wordOpen ++ (w ++ (wordClose ++ ['\n'])) := by
  unfold fieldXml
  simp only [List.append_assoc]
  rfl

theorem noStart_wordTail {w : Str} (hw : '<' ∉ w) (t : Str) : NoStart wordOpen (fieldTail (wordKey, w)) t := by
  have hkey : '<' ∉ wordKey := by decide
  rw [wordOpen_eq]
  exact noStart_fieldTail hkey hw (by simp [List.cons_prefix_cons]) (by simp [List.cons_prefix_cons]) t

/-- The places in an item, between its opening and its end, where the word's
part can match: only the word's field. -/
theorem wordOpen_place {s : Save} (hs : s.Safe) {d1 d2 : Dict} (hd : s.fields = d1 ++ (wordKey, s.word) :: d2)
    (hne : ∀ f ∈ d1 ++ d2, f.1 ≠ wordKey) {u v rest : Str} (huv : s.fields.flatMap fieldXml = u ++ v)
    (hp : wordOpen <+: v ++ (itemEnd ++ rest)) : u = d1.flatMap fieldXml := by
  have hfield {d : Dict} (hsub : ∀ f ∈ d, f ∈ s.fields ∧ f.1 ≠ wordKey) (t : Str) :
      NoStart wordOpen (d.flatMap fieldXml) t :=
    noStart_flatMap (fun f hf => noStart_wordOpen (Save.mem_fields hs (hsub f hf).1).1 (hsub f hf).2
      (Save.mem_fields hs (hsub f hf).1).2) t
  have h1 := hfield (d := d1) fun f hf => ⟨by simp [hd, hf], hne f (List.mem_append_left _ hf)⟩
  have h2 := hfield (d := d2) fun f hf => ⟨by simp [hd, hf], hne f (List.mem_append_right _ hf)⟩
  have htail (t : Str) : NoStart wordOpen (fieldTail (wordKey, s.word) ++ d2.flatMap fieldXml) t := by
    rw [noStart_append]
    exact ⟨noStart_wordTail hs.1.1 _, h2 t⟩
  rw [hd, List.flatMap_append, List.flatMap_cons, fieldXml_eq, List.cons_append] at huv
  rcases List.append_eq_append_iff.1 huv with ⟨x, hu, hx⟩ | ⟨x, hu, hx⟩
  · rcases x with _ | ⟨c, x⟩
    · simpa using hu
    · -- the place is after the first character of the word's field
      obtain ⟨-, hx⟩ := List.cons.inj hx
      rcases v with _ | ⟨e, v⟩
      · rw [wordOpen_eq, itemEnd_eq] at hp
        simp [List.cons_prefix_cons] at hp
      · exact absurd hp (NoStart.not_prefix (hx ▸ htail (itemEnd ++ rest)) (by simp))
  · rcases x with _ | ⟨c, x⟩
    · simpa using hu.symm
    · -- the place is in a field before the word's
      rw [hx, List.append_assoc] at hp
      exact absurd hp (NoStart.not_prefix (hu ▸ h1 _) (by simp))

/-- The item's text, around the word's field. -/
theorem itemXml_eq (d : Dict) : itemXml d = itemOpen ++ (d.flatMap fieldXml ++ itemClose) := by
  rw [itemXml, List.append_assoc]

theorem itemClose_eq : itemClose = itemEnd ++ ['\n'] := rfl

/-- On an item, every outcome comes from the place of the word's field. -/
theorem run_item {s : Save} (hs : s.Safe) {d1 d2 : Dict} (hd : s.fields = d1 ++ (wordKey, s.word) :: d2)
    (hne : ∀ f ∈ d1 ++ d2, f.1 ≠ wordKey) (w b rest : Str) :
    run {} (wordRe w) ⟨b, itemXml s.fields ++ rest, []⟩ =
      run {} (wordPart w) ⟨(itemOpen ++ d1.flatMap fieldXml).reverse ++ b, wordOpen ++ (s.word ++ (wordClose ++
        (('\n' :: d2.flatMap fieldXml) ++ (itemClose ++ rest)))), []⟩ := by
  have hbody : s.fields.flatMap fieldXml = d1.flatMap fieldXml ++ (fieldXml (wordKey, s.word) ++ d2.flatMap fieldXml) := by
    rw [hd, List.flatMap_append, List.flatMap_cons]
  have hafter : wordOpen ++ (s.word ++ (wordClose ++ (('\n' :: d2.flatMap fieldXml) ++ (itemClose ++ rest)))) =
      (fieldXml (wordKey, s.word) ++ d2.flatMap fieldXml) ++ (itemEnd ++ ('\n' :: rest)) := by
    simp [fieldXml_word, itemClose_eq]
  have htext : itemXml s.fields ++ rest = itemOpen ++ (s.fields.flatMap fieldXml ++ (itemEnd ++ ('\n' :: rest))) := by
    simp [itemXml_eq, itemClose_eq]
  rw [htext, run_wordRe, hafter, List.reverse_append, List.append_assoc]
  refine flatMap_unique (List.mem_reverse.2 ?_) (List.nodup_reverse.2 (walk_nodup _ _ _ _)) fun t ht hne' => ?_
  · rw [hbody, List.append_assoc]
    refine walk_guarded_mem ?_ _ _
    rw [← hbody]
    exact Save.noStart_body hs (.inr (.inl rfl)) _
  · obtain ⟨u, v, huv, rfl⟩ := mem_walk_guarded (by rw [itemEnd_eq]; simp) (List.mem_reverse.1 ht)
    refine run_wordPart_none (fun hp => hne' ?_) _ _
    obtain rfl := wordOpen_place hs hd hne huv hp
    rw [hbody, List.append_cancel_left_eq] at huv
    rw [huv]

/-- An item of another word does not match. -/
theorem run_item_ne {s : Save} (hs : s.Safe) {w : Str} (hw : '<' ∉ w) (hws : w ≠ s.word) (b rest : Str) :
    run {} (wordRe w) ⟨b, itemXml s.fields ++ rest, []⟩ = [] := by
  obtain ⟨d1, d2, hd, hne⟩ := s.fields_split
  rw [run_item hs hd hne, run_wordPart_ne hw hs.1.1 hws]

/-- An item of the word matches from its opening to its end. -/
theorem run_item_eq {s : Save} (hs : s.Safe) (b rest : Str) :
    ∃ ts, run {} (wordRe s.word) ⟨b, itemXml s.fields ++ rest, []⟩ =
      ⟨(itemXml s.fields).reverse ++ b, rest, []⟩ :: ts := by
  obtain ⟨d1, d2, hd, hne⟩ := s.fields_split
  have hclose : NoStart itemClose ('\n' :: d2.flatMap fieldXml) (itemClose ++ rest) := by
    have hbody : NoStart itemEnd (s.fields.flatMap fieldXml) (itemClose ++ rest) := Save.noStart_body hs (.inr (.inl rfl)) _
    rw [hd, List.flatMap_append, List.flatMap_cons, fieldXml_word] at hbody
    have hsuf : NoStart itemEnd ('\n' :: d2.flatMap fieldXml) (itemClose ++ rest) := by
      refine NoStart.suffix (x := d1.flatMap fieldXml ++ (wordOpen ++ (s.word ++ wordClose))) ?_
      simpa using hbody
    exact hsuf.mono ⟨['\n'], rfl⟩
  obtain ⟨ts, hts⟩ := run_wordPart_eq s.word ((itemOpen ++ d1.flatMap fieldXml).reverse ++ b) _ rest hclose []
  refine ⟨ts, ?_⟩
  rw [run_item hs hd hne, hts, itemXml_eq, hd, List.flatMap_append, List.flatMap_cons, fieldXml_word]
  simp

end ProGuide.Youdao
