import ProGuide.Lib.Text
import ProGuide.Lib.JsonRules
/-!
# The query history

`save_history_data` and `get_history_data` of `youdao.py`: the first appends a
line formatted by hand, the second reads the last lines as JSON, so a record
comes back only if its texts stand for themselves in a JSON string.
-/
open ProGuide.Lib ProGuide.Lib.Text ProGuide.Lib.Json

namespace ProGuide.Youdao

/-! ## Writing and reading -/

/-- The arguments of one `save_history_data`. -/
structure Record where
  query : Units
  title : Units
  arg : Units
  icon : Units
  deriving DecidableEq, Repr

/-- The line a record is formatted to. -/
def jsonData (r : Record) : Units :=
  units "\x7b\"title\": \"" ++ r.query ++ units "\", \"subtitle\": \"" ++ r.title ++ units "\", \"arg\": \"" ++ r.arg ++
    units "\",         \"icon\": \"" ++ r.icon ++ units "\"\x7d\n"

def saveHistoryData (log : Units) (r : Record) : Units := log ++ jsonData r

/-- An item of the result list. -/
structure Shown where
  title : Value
  subtitle : Value
  arg : Value
  icon : Value

/-- The item of one line; none when the line raises. -/
def showLine (line : Units) : Option Shown := do
  let v ← loads line
  return ⟨← v.get (units "title"), ← v.get (units "subtitle"), ← v.get (units "arg"), ← v.get (units "icon")⟩

/-- The items of `readlines()[-1:-10:-1]`. -/
def getHistoryData (log : Units) : List Shown := ((readlines 10 log).reverse.take 9).filterMap showLine

/-- The item that shows a record as it was saved. -/
def Record.shown (r : Record) : Shown := ⟨.str r.query, .str r.title, .str r.arg, .str r.icon⟩

/-- The records kept, newest first. -/
def kept (records : List Record) : List Record := records.reverse.take 9

/-- After the saves, the history shows exactly the last nine records. -/
def Faithful (records : List Record) : Prop :=
  getHistoryData (records.foldl saveHistoryData []) = (kept records).map Record.shown

/-! ## One record -/

def titleKey : Units := units "title"

def subtitleKey : Units := units "subtitle"

def argKey : Units := units "arg"

def iconKey : Units := units "icon"

/-- The four texts of a record, each under the name it is shown by. -/
def Record.members (r : Record) : List (Units × Units) :=
  [(titleKey, r.query), (subtitleKey, r.title), (argKey, r.arg), (iconKey, r.icon)]

/-- All four texts stand for themselves in a JSON string. -/
def Record.Plain (r : Record) : Prop := ∀ m ∈ r.members, Json.Plain m.2

/-- The line after its opening brace. -/
def membersText (r : Record) : Units :=
  quote :: (titleKey ++ quote :: 58 :: 32 :: quote :: (r.query ++ quote :: 44 ::
    (32 :: quote :: (subtitleKey ++ quote :: 58 :: 32 :: quote :: (r.title ++ quote :: 44 ::
      (32 :: quote :: (argKey ++ quote :: 58 :: 32 :: quote :: (r.arg ++ quote :: 44 ::
        (List.replicate 9 32 ++ quote :: (iconKey ++ quote :: 58 :: 32 :: quote :: (r.icon ++ quote :: 125 ::
          [10])))))))))))

theorem jsonData_eq (r : Record) : jsonData r = 123 :: membersText r := by
  simp only [jsonData, List.append_assoc]
  rfl

theorem skipBlanks_quote (n : Nat) (s : Units) : skipBlanks (List.replicate n 32 ++ quote :: s) = quote :: s := by
  induction n with
  | zero => rfl
  | succ n ih => exact ih

theorem members_membersText {r : Record} (hr : r.Plain) (n : Nat) :
    members (n + 5) (membersText r) = some ((r.members.map fun m => (m.1, .str m.2)), [10]) := by
  have hkeys : Json.Plain titleKey ∧ Json.Plain subtitleKey ∧ Json.Plain argKey ∧ Json.Plain iconKey := by decide
  obtain ⟨hk1, hk2, hk3, hk4⟩ := hkeys
  simp only [Record.Plain, Record.members, List.forall_mem_cons] at hr
  obtain ⟨hq, ht, ha, hi, -⟩ := hr
  have hblank (t : Units) : skipBlanks (32 :: quote :: t) = quote :: t := rfl
  rw [membersText, members_plain hk1 hq, hblank, members_plain hk2 ht, hblank, members_plain hk3 ha, skipBlanks_quote,
    members_plain_last hk4 hi]
  rfl

/-- A plain record's line is read as the object of its four texts. -/
theorem loads_jsonData {r : Record} (hr : r.Plain) :
    loads (jsonData r) = some (.obj (r.members.map fun m => (m.1, .str m.2))) := by
  have hskip : skipBlanks (jsonData r) = jsonData r := by
    rw [jsonData_eq]
    exact skipBlanks_cons rfl _
  have hopen : skipBlanks (membersText r) = membersText r := skipBlanks_cons rfl _
  have hvalue (n : Nat) : value (n + 5 + 1) (jsonData r) = some (.obj (r.members.map fun m => (m.1, .str m.2)), [10]) := by
    rw [jsonData_eq, value.eq_def]
    have hmembers := members_membersText hr n
    have hbrace : (123 : Nat) ≠ quote := by decide
    simp only [hbrace, if_false, if_true, hopen]
    split
    · next h => cases h
    · rw [hmembers]
      rfl
  rw [loads_enough (n := 2 * (jsonData r).length + 5 + 1) (by omega), hskip, hvalue]
  rfl

theorem showLine_jsonData {r : Record} (hr : r.Plain) : showLine (jsonData r) = some r.shown := by
  rw [showLine, loads_jsonData hr]
  rfl

/-! ## What a shown record costs -/

/-- The characters of a record that cannot stand for themselves. -/
def Record.escaped (r : Record) : Nat := (r.members.map fun m => Json.escaped m.2).sum

theorem escaped_eq_zero (w : Units) : Json.escaped w = 0 ↔ Json.Plain w := by
  simp [Json.escaped, Json.Plain, List.countP_eq_zero]

theorem plain_iff_escaped (r : Record) : r.Plain ↔ r.escaped = 0 := by
  simp [Record.Plain, Record.escaped, Record.members, escaped_eq_zero]

/-- A record's line weighs what its four members cost, but for the escapes. -/
theorem weight_jsonData (r : Record) :
    weight (jsonData r) + r.escaped = membersCost (r.members.map fun m => (m.1, .str m.2)) + 1 := by
  have hkeys : weight titleKey = 5 ∧ weight subtitleKey = 8 ∧ weight argKey = 3 ∧ weight iconKey = 4 := by decide
  have hplain : Json.escaped titleKey = 0 ∧ Json.escaped subtitleKey = 0 ∧ Json.escaped argKey = 0 ∧
      Json.escaped iconKey = 0 := by decide
  obtain ⟨h1, h2, h3, h4⟩ := hkeys
  obtain ⟨e1, e2, e3, e4⟩ := hplain
  have hspace (t : Units) : weight (32 :: t) = weight t := by simp [isBlank]
  have hblanks : weight (List.replicate 9 32) = 0 := by decide
  have hend : weight [10] = 0 := by decide
  rw [jsonData_eq, membersText]
  simp only [weight_append, hspace, weight_solid (c := 123) rfl, weight_solid (c := quote) rfl,
    weight_solid (c := 58) rfl, weight_solid (c := 44) rfl, weight_solid (c := 125) rfl, hblanks, hend, h1, h2, h3, h4, Record.escaped, Record.members,
    List.map_cons, List.map_nil, membersCost, memberCost, cost, List.sum_cons, List.sum_nil, e1, e2, e3, e4]
  omega

/-- A line that shows a record as saved weighs as much as the record's own line,
and one more for each character that cannot stand for itself. -/
theorem showLine_weight {line : Units} {r : Record} (h : showLine line = some r.shown) :
    weight (jsonData r) + r.escaped ≤ weight line := by
  simp only [showLine, Option.bind_eq_bind, Option.bind_eq_some_iff] at h
  obtain ⟨v, hv, q, hq, t, ht, a, ha, i, hi, h⟩ := h
  simp only [Record.shown, Option.pure_def, Option.some.injEq, Shown.mk.injEq] at h
  obtain ⟨rfl, rfl, rfl, rfl⟩ := h
  cases v with
  | obj ms =>
    have hn : ((r.members.map fun m => (m.1, Value.str m.2)).map Prod.fst).Nodup := by
      have hkeys : [titleKey, subtitleKey, argKey, iconKey].Nodup := by decide
      exact hkeys
    have hget : ∀ p ∈ r.members.map fun m => (m.1, Value.str m.2), (Value.obj ms).get p.1 = some p.2 := by
      simp only [Record.members, List.map_cons, List.map_nil, List.forall_mem_cons]
      exact ⟨hq, ht, ha, hi, fun _ h => absurd h List.not_mem_nil⟩
    have hcost := membersCost_get hn hget
    have hpaid := loads_paid hv
    rw [weight_jsonData]
    omega
  | _ => cases hq

/-! ## The lines of the log -/

theorem foldl_saveHistoryData (records : List Record) (log : Units) :
    records.foldl saveHistoryData log = log ++ records.flatMap jsonData := by
  induction records generalizing log with
  | nil => simp
  | cons r records ih =>
    rw [List.foldl_cons, ih, saveHistoryData, List.flatMap_cons, List.append_assoc]

/-- A record's line without its newline. -/
def lineBody (r : Record) : Units :=
  units "\x7b\"title\": \"" ++ (r.query ++ (units "\", \"subtitle\": \"" ++ (r.title ++ (units "\", \"arg\": \"" ++
    (r.arg ++ (units "\",         \"icon\": \"" ++ (r.icon ++ units "\"\x7d")))))))

theorem jsonData_line (r : Record) : jsonData r = lineBody r ++ [10] := by
  simp only [jsonData, lineBody, List.append_assoc]
  rfl

theorem newline_not_mem {w : Units} (hw : Json.Plain w) : 10 ∉ w := by
  intro h
  have := hw 10 h
  simp [special] at this

/-- A plain record's line is one line. -/
theorem readlines_jsonData {r : Record} (hr : r.Plain) : readlines 10 (jsonData r) = [jsonData r] := by
  simp only [Record.Plain, Record.members, List.forall_mem_cons] at hr
  obtain ⟨hq, ht, ha, hi, -⟩ := hr
  have hbody : 10 ∉ lineBody r := by
    simp only [lineBody, List.mem_append, not_or]
    exact ⟨by decide, newline_not_mem hq, by decide, newline_not_mem ht, by decide, newline_not_mem ha, by decide,
      newline_not_mem hi, by decide⟩
  rw [jsonData_line]
  exact readlines_line hbody

/-- The lines of a record, last first. -/
def linesBack (r : Record) : List Units := (readlines 10 (jsonData r)).reverse

theorem linesBack_ne_nil (r : Record) : linesBack r ≠ [] := by
  have hne : jsonData r ≠ [] := by
    rw [jsonData_eq]
    exact List.cons_ne_nil _ _
  simpa [linesBack] using readlines_ne_nil 10 hne

/-- The history reads the last nine lines, which the last records' lines make up. -/
theorem getHistoryData_eq (records : List Record) : getHistoryData (records.foldl saveHistoryData []) =
    ((records.reverse.flatMap linesBack).take 9).filterMap showLine := by
  have hlines : readlines 10 (records.flatMap jsonData) = records.flatMap fun r => readlines 10 (jsonData r) :=
    readlines_flatMap (fun r => ⟨lineBody r, jsonData_line r⟩) records
  rw [foldl_saveHistoryData, List.nil_append, getHistoryData, hlines, List.reverse_flatMap]
  rfl

/-- The weight of some lines. -/
def linesWeight (ls : List Units) : Nat := (ls.map weight).sum

theorem weight_flatten (ls : List Units) : weight ls.flatten = linesWeight ls := List.countP_flatten

theorem linesWeight_linesBack (r : Record) : linesWeight (linesBack r) = weight (jsonData r) := by
  rw [linesWeight, linesBack, List.map_reverse, List.sum_reverse, ← linesWeight, ← weight_flatten, readlines_flatten]

theorem linesWeight_flatMap (rs : List Record) :
    linesWeight (rs.flatMap linesBack) = (rs.map fun r => weight (jsonData r)).sum := by
  induction rs with
  | nil => rfl
  | cons r rs ih =>
    rw [linesWeight] at ih ⊢
    rw [List.flatMap_cons, List.map_append, List.sum_append, ih, ← linesWeight, linesWeight_linesBack]
    rfl

theorem linesWeight_le {ls ls' : List Units} (h : ls <+: ls') : linesWeight ls ≤ linesWeight ls' := by
  obtain ⟨t, rfl⟩ := h
  rw [linesWeight, linesWeight, List.map_append, List.sum_append]
  omega

/-- Lines that show records as saved weigh what those records' lines do, and one
more for each character that cannot stand for itself. -/
theorem shown_weight {ls : List Units} {rs : List Record} (h : ls.filterMap showLine = rs.map Record.shown) :
    (rs.map fun r => weight (jsonData r)).sum + (rs.map Record.escaped).sum ≤ linesWeight ls := by
  induction ls generalizing rs with
  | nil =>
    cases rs with
    | nil => simp
    | cons _ _ => cases h
  | cons l ls ih =>
    rw [linesWeight, List.map_cons, List.sum_cons, ← linesWeight]
    cases hl : showLine l with
    | none =>
      rw [List.filterMap_cons_none hl] at h
      have := ih h
      omega
    | some e =>
      rw [List.filterMap_cons_some hl] at h
      cases rs with
      | nil => cases h
      | cons r rs =>
        obtain ⟨he, htail⟩ := List.cons.inj h
        subst he
        have hr := showLine_weight hl
        have := ih htail
        simp only [List.map_cons, List.sum_cons]
        omega

/-! ## The store -/

theorem faithful_of_plain {records : List Record} (h : ∀ r ∈ kept records, r.Plain) : Faithful records := by
  have hlines : ∀ r ∈ kept records, linesBack r = [jsonData r] := by
    intro r hr
    rw [linesBack, readlines_jsonData (h r hr)]
    rfl
  have hshow : (kept records).filterMap (fun r => showLine (jsonData r)) = (kept records).map Record.shown := by
    rw [← List.filterMap_eq_map]
    exact List.filterMap_congr fun r hr => showLine_jsonData (h r hr)
  rw [Faithful, getHistoryData_eq, take_flatMap_single hlines, List.filterMap_map]
  exact hshow

theorem plain_of_faithful {records : List Record} (h : Faithful records) : ∀ r ∈ kept records, r.Plain := by
  rw [Faithful, getHistoryData_eq] at h
  have hshown := shown_weight h
  have htaken := linesWeight_le (take_flatMap_isPrefix linesBack_ne_nil records.reverse 9)
  rw [linesWeight_flatMap] at htaken
  have hzero : ((kept records).map Record.escaped).sum = 0 := by
    rw [kept] at hshown ⊢
    omega
  intro r hr
  rw [plain_iff_escaped]
  exact List.sum_eq_zero_iff.1 hzero _ (List.mem_map_of_mem hr)

/-- The history shows the last nine records as they were saved exactly when none
of their texts holds a quote, a backslash or a control character. -/
theorem faithful_iff (records : List Record) : Faithful records ↔ ∀ r ∈ kept records, r.Plain :=
  ⟨plain_of_faithful, faithful_of_plain⟩

/-- A record of a query with quotes in it. -/
def quotedRecord : Record :=
  ⟨units "say \"yes\"", units "he said yes", units "2.2.5$%say \"yes\"$%he said yes$%EN2zh-CHS$%$%", units "icon.png"⟩

/-- The record's line is not JSON, and the history leaves it out. -/
theorem quoted_record_lost :
    getHistoryData ([quotedRecord].foldl saveHistoryData []) = [] ∧ ¬ Faithful [quotedRecord] := by
  have hnone : (getHistoryData ([quotedRecord].foldl saveHistoryData [])).isEmpty = true := by decide +kernel
  have hempty := List.isEmpty_iff.1 hnone
  refine ⟨hempty, fun h => ?_⟩
  rw [Faithful, hempty] at h
  cases h

end ProGuide.Youdao
