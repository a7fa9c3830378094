import Mathlib.Data.List.Sort
import ProGuide.Lib.Runs
import ProGuide.Workflow.Version
/-!
# Updates

`update.py` picks the newest download among a repository's releases, remembers it as
the update status, and installs it when asked. The status outlives the releases it
was made from.
-/
open ProGuide.Lib.Runs

namespace ProGuide.Workflow

/-! ## Releases -/

/-- A release as GitHub lists it; an asset is its `browser_download_url`. -/
structure Release where
  tag_name : Str
  prerelease : Bool
  assets : List Str
  deriving DecidableEq, Repr

/-- `match_workflow`, that is `\.alfred(\d+)?workflow$`: the match, and its digits.
The `$` also matches before a newline at the end. -/
def matchWorkflow (filename : Str) : Option (Str × Str) :=
  let name := if filename.getLast? = some '\n' then filename.dropLast else filename
  let tail := "workflow".toList
  let stem := (name.take (name.length - tail.length)).reverse
  let digits := (stem.takeWhile Char.isDigit).reverse
  if tail <:+ name ∧ ".alfred".toList <:+ (stem.dropWhile Char.isDigit).reverse then
    some (".alfred".toList ++ digits ++ tail, digits)
  else none

structure Download where
  url : Str
  filename : Str
  version : Version
  prerelease : Bool
  deriving DecidableEq, Repr

/-- `Version('0')`. -/
def Version.zero : Version := ⟨.num 0, .num 0, .num 0, [], []⟩

/-- The Alfred version in the file name's extension. -/
def alfredVersion (d : Download) : Version :=
  match matchWorkflow d.filename with
  | some (_, n :: digits) => (Version.parse (n :: digits)).toOption.getD .zero
  | _ => .zero

/-- `__lt__`. -/
def Download.lt (d e : Download) : Bool :=
  if d.version.eq e.version then (alfredVersion d).lt (alfredVersion e) else d.version.lt e.version

/-- The workflow files of a release, with the extensions that were matched. -/
def workflowFiles (r : Release) (v : Version) : List (Str × Download) :=
  r.assets.filterMap fun url => (matchWorkflow (basename url)).map fun m => (m.1, ⟨url, basename url, v, r.prerelease⟩)

/-- What a release adds: nothing if its tag is no version, or if two of its files have
the same extension. -/
def releaseDownloads (r : Release) : List Download :=
  match Version.parse r.tag_name with
  | .error _ => []
  | .ok v => if ((workflowFiles r v).map Prod.fst).Nodup then (workflowFiles r v).map Prod.snd else []

/-- All downloads, in the order of the releases. -/
def downloads (rs : List Release) : List Download := rs.flatMap releaseDownloads

/-- `sort(reverse=True)`: equal ones keep their order. Among versions that are alike but
not equal, which comes first depends on the way of sorting. -/
def sortReverse (ds : List Download) : List Download := ds.insertionSort fun d e => ¬ d.lt e = true

/-- `Download.from_releases`. -/
def fromReleases (rs : List Release) : List Download := sortReverse (downloads rs)

/-- A download that is not passed over: no prerelease unless these are wanted, and none
for a later Alfred than the one that runs, if its version is known. -/
def Eligible (prereleases : Bool) (alfred : Option Version) (d : Download) : Bool :=
  !(d.prerelease && !prereleases) && !(alfred.any fun v => v.lt (alfredVersion d))

def latestDownload (ds : List Download) (alfred : Option Version) (prereleases : Bool) : Option Download :=
  (sortReverse ds).find? (Eligible prereleases alfred)

/-! ## The status -/

/-- `Download.dict`. -/
structure DownloadDict where
  url : Str
  filename : Str
  version : Str
  prerelease : Bool
  deriving DecidableEq, Repr

def Download.dict (d : Download) : DownloadDict := ⟨d.url, d.filename, d.version.str, d.prerelease⟩

def Download.fromDict (d : DownloadDict) : Except VersionError Download := do
  let v ← Version.parse d.version
  .ok ⟨d.url, d.filename, v, d.prerelease⟩

/-- What is cached under `__workflow_latest_version`. -/
structure Status where
  available : Bool
  download : Option DownloadDict
  version : Option Str
  deriving DecidableEq, Repr

def noUpdate : Status := ⟨false, none, none⟩

/-- `check_update`: whether there is an update, and the status written. -/
def checkUpdate (rs : List Release) (current : Version) (prereleases : Bool) (alfred : Option Version) : Bool × Status :=
  match latestDownload (fromReleases rs) alfred prereleases with
  | none => (false, noUpdate)
  | some d => if current.lt d.version then (true, ⟨true, some d.dict, some d.version.str⟩) else (false, noUpdate)

/-- `Workflow.update_available`. -/
def updateAvailable (status : Option Status) : Bool := (status.map (·.available)).getD false

/-- What `install_update` comes to: nothing to install, a file opened that was downloaded
from a URL, or an exception. -/
inductive Installed where
  | nothing
  | opened (url filename : Str)
  | raised
  deriving DecidableEq, Repr

/-- `install_update`, and the status afterwards. `fetched` tells whether the download
succeeds. -/
def installUpdate (status : Option Status) (fetched : Bool) : Installed × Option Status :=
  match status with
  | none => (.nothing, none)
  | some s =>
    if s.available then
      match s.download with
      | none => (.nothing, status)
      | some dict =>
        match Download.fromDict dict with
        | .error _ => (.raised, status)
        | .ok d =>
          if (matchWorkflow d.filename).isSome && fetched then (.opened d.url d.filename, some noUpdate)
          else (.raised, status)
    else (.nothing, status)

example : latestDownload (fromReleases [⟨"1.2".toList, false, ["x/a.alfredworkflow".toList]⟩,
    ⟨"v1.10".toList, false, ["x/b.alfred4workflow".toList]⟩]) none false =
    some ⟨"x/b.alfred4workflow".toList, "b.alfred4workflow".toList, ⟨.num 1, .num 10, .num 0, [], []⟩, false⟩ := by
  decide +kernel

/-! ## Sorting -/

section Sorting
variable {α κ : Type} [LinearOrder κ] {r : α → α → Prop} [DecidableRel r]

/-- A comparison that agrees with a key wherever keys differ. -/
def Follows (r : α → α → Prop) (key : α → κ) (a b : α) : Prop := (r a b → key b ≤ key a) ∧ (¬ r a b → key a ≤ key b)

omit [DecidableRel r] in
theorem follows_of_iff {key : α → κ} {a b : α} (h : r a b ↔ key b ≤ key a) : Follows r key a b :=
  ⟨h.1, fun hab => le_of_not_ge fun hle => hab (h.2 hle)⟩

theorem pairwise_orderedInsert (key : α → κ) {a : α} {l : List α} (hr : ∀ b ∈ l, Follows r key a b)
    (h : l.Pairwise fun a b => key b ≤ key a) : (l.orderedInsert r a).Pairwise fun a b => key b ≤ key a := by
  induction l with
  | nil => exact List.pairwise_singleton _ _
  | cons b l ih =>
    obtain ⟨hb, hl⟩ := List.pairwise_cons.1 h
    rw [List.orderedInsert_cons]
    split
    · rename_i hab
      have hba := (hr b List.mem_cons_self).1 hab
      refine List.pairwise_cons.2 ⟨fun c hc => ?_, h⟩
      rcases List.mem_cons.1 hc with rfl | hc
      · exact hba
      · exact (hb c hc).trans hba
    · rename_i hab
      refine List.pairwise_cons.2 ⟨fun c hc => ?_, ih (fun c hc => hr c (List.mem_cons_of_mem b hc)) hl⟩
      rcases (List.mem_orderedInsert r).1 hc with rfl | hc
      · exact (hr b List.mem_cons_self).2 hab
      · exact hb c hc

/-- A comparison that follows a key on the elements of a list sorts the list by it. -/
theorem pairwise_insertionSort_key (key : α → κ) {l : List α} (hr : ∀ a ∈ l, ∀ b ∈ l, Follows r key a b) :
    (l.insertionSort r).Pairwise fun a b => key b ≤ key a := by
  induction l with
  | nil => exact List.Pairwise.nil
  | cons a l ih =>
    rw [List.insertionSort_cons]
    refine pairwise_orderedInsert key (fun b hb => ?_) (ih fun b hb c hc =>
      hr b (List.mem_cons_of_mem a hb) c (List.mem_cons_of_mem a hc))
    exact hr a List.mem_cons_self b (List.mem_cons_of_mem a ((List.mem_insertionSort r).1 hb))

omit [DecidableRel r] in
/-- The first that passes a test in a sorted list is the greatest that does. -/
theorem find_greatest {key : α → κ} {l : List α} {p : α → Bool} {a : α} (hl : l.Pairwise fun a b => key b ≤ key a)
    (h : l.find? p = some a) {b : α} (hb : b ∈ l) (hp : p b = true) : key b ≤ key a := by
  obtain ⟨-, pre, post, rfl, hpre⟩ := List.find?_eq_some_iff_append.1 h
  rcases List.mem_append.1 hb with hb | hb
  · exact absurd hp (by simpa using hpre b hb)
  · rcases List.mem_cons.1 hb with rfl | hb
    · exact le_refl _
    · exact (List.pairwise_cons.1 (List.pairwise_append.1 hl).2.1).1 b hb

end Sorting

/-! ## The newest download -/

/-- What the order of downloads goes by. -/
def Download.key (d : Download) : (List Part ×ₗ (Bool ×ₗ List Part)) ×ₗ (List Part ×ₗ (Bool ×ₗ List Part)) :=
  toLex (d.version.key, (alfredVersion d).key)

/-- No two versions that differ are neither newer than the other. -/
def Comparable (ds : List Download) : Prop :=
  ∀ d ∈ ds, ∀ e ∈ ds, ¬ d.version.lt e.version = true → ¬ e.version.lt d.version = true → d.version.eq e.version = true

theorem lt_iff_key {ds : List Download} (hc : Comparable ds) {d e : Download} (hd : d ∈ ds) (he : e ∈ ds) :
    d.lt e = true ↔ d.key < e.key := by
  unfold Download.lt Download.key
  rw [Prod.Lex.toLex_lt_toLex]
  simp only
  split
  · rename_i heq
    have hkey := Version.key_of_eq heq
    rw [Version.lt_iff]
    simp [hkey]
  · rename_i hne
    rw [Version.lt_iff]
    refine ⟨.inl, fun h => h.resolve_right fun h => hne ?_⟩
    obtain ⟨h1, h2⟩ := Version.same_iff.2 h.1
    exact hc d hd e he h1 h2

theorem Comparable.sort {ds : List Download} (hc : Comparable ds) : Comparable (sortReverse ds) := fun d hd e he =>
  hc d ((List.mem_insertionSort _).1 hd) e ((List.mem_insertionSort _).1 he)

theorem pairwise_sortReverse {ds : List Download} (hc : Comparable ds) :
    (sortReverse ds).Pairwise fun d e => e.key ≤ d.key := by
  refine pairwise_insertionSort_key Download.key fun d hd e he => follows_of_iff ?_
  rw [lt_iff_key hc hd he, not_lt]

/-- A download that comes before another has no newer version. -/
theorem version_le_of_lt {d e : Download} (h : d.lt e = true) : d.version.key ≤ e.version.key := by
  unfold Download.lt at h
  split at h
  · next heq => exact le_of_eq (Version.key_of_eq heq)
  · exact le_of_lt (Version.lt_iff.1 h)

theorem version_le_of_not_lt {d e : Download} (h : ¬ d.lt e = true) : e.version.key ≤ d.version.key := by
  unfold Download.lt at h
  split at h
  · next heq => exact le_of_eq (Version.key_of_eq heq).symm
  · rwa [Version.lt_iff, not_lt] at h

/-- Whatever versions there are, they are sorted by how new they are. -/
theorem pairwise_version (ds : List Download) :
    (sortReverse ds).Pairwise fun d e => e.version.key ≤ d.version.key := by
  refine pairwise_insertionSort_key (fun d : Download => d.version.key) fun d _ e _ => ?_
  exact ⟨version_le_of_not_lt, fun h => version_le_of_lt (not_not.1 h)⟩

theorem mem_sortReverse {ds : List Download} {d : Download} : d ∈ sortReverse ds ↔ d ∈ ds := List.mem_insertionSort _

/-- The download picked may be installed, and none that may has a newer version. -/
theorem latestDownload_some {ds : List Download} {alfred : Option Version} {pre : Bool} {d : Download}
    (h : latestDownload ds alfred pre = some d) : d ∈ ds ∧ Eligible pre alfred d = true ∧
      ∀ e ∈ ds, Eligible pre alfred e = true → ¬ d.version.lt e.version = true := by
  refine ⟨mem_sortReverse.1 (List.mem_of_find?_eq_some h), List.find?_some h, fun e he hel => ?_⟩
  rw [Version.lt_iff, not_lt]
  exact find_greatest (pairwise_version ds) h (mem_sortReverse.2 he) hel

/-- Where versions compare, none that may be installed comes after it at all. -/
theorem latestDownload_last {ds : List Download} (hc : Comparable ds) {alfred : Option Version} {pre : Bool}
    {d : Download} (h : latestDownload ds alfred pre = some d) :
    ∀ e ∈ ds, Eligible pre alfred e = true → ¬ d.lt e = true := by
  intro e he hel
  have hd : d ∈ ds := mem_sortReverse.1 (List.mem_of_find?_eq_some h)
  rw [lt_iff_key hc hd he, not_lt]
  exact find_greatest (pairwise_sortReverse hc) h (mem_sortReverse.2 he) hel

theorem latestDownload_none {ds : List Download} {alfred : Option Version} {pre : Bool}
    (h : latestDownload ds alfred pre = none) : ∀ e ∈ ds, ¬ Eligible pre alfred e = true := fun e he =>
  List.find?_eq_none.1 h e (mem_sortReverse.2 he)

/-! ## Checking -/

/-- The newest download that may be installed, and newer than the current version: none
that may has a newer version and, where versions compare, none of its own is for a later
Alfred. -/
structure Newest (rs : List Release) (current : Version) (pre : Bool) (alfred : Option Version) (d : Download) : Prop where
  mem : d ∈ downloads rs
  eligible : Eligible pre alfred d = true
  newer : current.lt d.version = true
  greatest : ∀ e ∈ downloads rs, Eligible pre alfred e = true → ¬ d.version.lt e.version = true
  last : Comparable (downloads rs) → ∀ e ∈ downloads rs, Eligible pre alfred e = true → ¬ d.lt e = true

theorem checkUpdate_true {rs : List Release} {current : Version} {pre : Bool} {alfred : Option Version}
    (h : (checkUpdate rs current pre alfred).1 = true) :
    ∃ d, Newest rs current pre alfred d ∧ (checkUpdate rs current pre alfred).2 = ⟨true, some d.dict, some d.version.str⟩ := by
  unfold checkUpdate at h ⊢
  cases hl : latestDownload (fromReleases rs) alfred pre with
  | none =>
    rw [hl] at h
    cases h
  | some d =>
    simp only [hl] at h ⊢
    split at h
    · rename_i hnew
      obtain ⟨hd, hel, hmax⟩ := latestDownload_some hl
      refine ⟨d, ⟨mem_sortReverse.1 hd, hel, hnew, fun e he => hmax e (mem_sortReverse.2 he), fun hc e he => ?_⟩, ?_⟩
      · exact latestDownload_last hc.sort hl e (mem_sortReverse.2 he)
      · rw [if_pos hnew]
    · cases h

theorem checkUpdate_false {rs : List Release} {current : Version} {pre : Bool} {alfred : Option Version}
    (h : (checkUpdate rs current pre alfred).1 = false) :
    (∀ e ∈ downloads rs, Eligible pre alfred e = true → ¬ current.lt e.version = true) ∧
      (checkUpdate rs current pre alfred).2 = noUpdate := by
  unfold checkUpdate at h ⊢
  cases hl : latestDownload (fromReleases rs) alfred pre with
  | none => exact ⟨fun e he hel => absurd hel (latestDownload_none hl e (mem_sortReverse.2 he)), rfl⟩
  | some d =>
    simp only [hl] at h ⊢
    split at h
    · cases h
    · rename_i hold
      obtain ⟨-, -, hmax⟩ := latestDownload_some hl
      refine ⟨fun e he hel hnew => hold ?_, by rw [if_neg hold]⟩
      -- what is newer than the current version is no newer than the one picked
      have hle := hmax e (mem_sortReverse.2 he) hel
      rw [Version.lt_iff, not_lt] at hle
      rw [Version.lt_iff] at hnew ⊢
      exact hnew.trans_le hle

theorem checkUpdate_iff {rs : List Release} {current : Version} {pre : Bool} {alfred : Option Version} :
    (checkUpdate rs current pre alfred).1 = true ↔
      ∃ e ∈ downloads rs, Eligible pre alfred e = true ∧ current.lt e.version = true := by
  cases h : (checkUpdate rs current pre alfred).1 with
  | true =>
    obtain ⟨d, hd, -⟩ := checkUpdate_true h
    exact iff_of_true rfl ⟨d, hd.mem, hd.eligible, hd.newer⟩
  | false =>
    obtain ⟨hnone, -⟩ := checkUpdate_false h
    exact iff_of_false Bool.false_ne_true fun ⟨e, he, hel, hnew⟩ => hnone e he hel hnew

/-! ## Installing -/

/-- A download of a release has a version that was read, and a workflow's file name. -/
theorem mem_downloads {rs : List Release} {d : Download} (h : d ∈ downloads rs) :
    d.version.Read ∧ (matchWorkflow d.filename).isSome = true := by
  obtain ⟨r, -, hd⟩ := List.mem_flatMap.1 h
  unfold releaseDownloads at hd
  split at hd
  · cases hd
  · rename_i v hv
    split at hd
    · obtain ⟨⟨ext, d'⟩, hmem, rfl⟩ := List.mem_map.1 hd
      obtain ⟨url, -, hm⟩ := List.mem_filterMap.1 hmem
      obtain ⟨m, hmatch, heq⟩ := Option.map_eq_some_iff.1 hm
      obtain ⟨-, rfl⟩ := Prod.mk.inj heq
      exact ⟨parse_read hv, by rw [hmatch]; rfl⟩
    · cases hd

/-- The dictionary kept in the status gives the download back. -/
theorem fromDict_dict {d : Download} (h : d.version.Read) : Download.fromDict d.dict = .ok d := by
  unfold Download.fromDict Download.dict
  simp [parse_str_read h, bind, Except.bind]

/-- Installing what a check has found. -/
theorem installUpdate_dict {rs : List Release} {d : Download} (h : d ∈ downloads rs) (version : Option Str)
    (fetched : Bool) : installUpdate (some ⟨true, some d.dict, version⟩) fetched =
      if fetched then (.opened d.url d.filename, some noUpdate) else (.raised, some ⟨true, some d.dict, version⟩) := by
  obtain ⟨hread, hfile⟩ := mem_downloads h
  simp [installUpdate, fromDict_dict hread, hfile]

/-- The status a check writes says what it answered. -/
theorem check_status (rs : List Release) (current : Version) (pre : Bool) (alfred : Option Version) :
    updateAvailable (some (checkUpdate rs current pre alfred).2) = (checkUpdate rs current pre alfred).1 := by
  unfold checkUpdate
  split
  · rfl
  · split <;> rfl

/-- A check finds an update exactly when some download that may be installed is newer
than the current version. What it leaves in the cache is then read back as the newest
of these, which is what installing opens; a failed download leaves it there. -/
theorem check_offers_newest (rs : List Release) (current : Version) (pre : Bool) (alfred : Option Version) :
    ((checkUpdate rs current pre alfred).1 = true ↔
      ∃ e ∈ downloads rs, Eligible pre alfred e = true ∧ current.lt e.version = true) ∧
    updateAvailable (some (checkUpdate rs current pre alfred).2) = (checkUpdate rs current pre alfred).1 ∧
    ((checkUpdate rs current pre alfred).1 = true → ∃ d, Newest rs current pre alfred d ∧
      ∀ fetched, installUpdate (some (checkUpdate rs current pre alfred).2) fetched =
        if fetched then (.opened d.url d.filename, some noUpdate)
        else (.raised, some (checkUpdate rs current pre alfred).2)) := by
  refine ⟨checkUpdate_iff, check_status rs current pre alfred, fun h => ?_⟩
  obtain ⟨d, hd, hstatus⟩ := checkUpdate_true h
  rw [hstatus]
  exact ⟨d, hd, installUpdate_dict hd.mem _⟩

/-- Two releases, the later of which is not a version. -/
def someReleases : List Release :=
  [⟨"v2.2.6".toList, false, ["https://x/youdao.alfredworkflow".toList]⟩,
    ⟨"latest".toList, false, ["https://x/latest.alfredworkflow".toList]⟩]

def version225 : Version := ⟨.num 2, .num 2, .num 5, [], []⟩

def download226 : Download :=
  ⟨"https://x/youdao.alfredworkflow".toList, "youdao.alfredworkflow".toList, ⟨.num 2, .num 2, .num 6, [], []⟩, false⟩

theorem check_offers_newest_226 : Newest someReleases version225 false none download226 ∧
    ∀ fetched, installUpdate (some (checkUpdate someReleases version225 false none).2) fetched =
      if fetched then (.opened download226.url download226.filename, some noUpdate)
      else (.raised, some (checkUpdate someReleases version225 false none).2) := by
  obtain ⟨d, hd, hinstall⟩ := (check_offers_newest someReleases version225 false none).2.2 (by decide +kernel)
  have hone : downloads someReleases = [download226] := by decide +kernel
  have hmem := hd.mem
  rw [hone, List.mem_singleton] at hmem
  exact hmem ▸ ⟨hd, hinstall⟩

/-! ## Runs -/

/-- The releases as GitHub lists them now, the time in microseconds, the response in the
cache with the time it was written, the version installed, and the status in the cache. -/
structure UpdateState where
  releases : List Release
  clock : Nat
  response : Option (Nat × List Release)
  installed : Version
  status : Option Status
  deriving DecidableEq, Repr

inductive UpdateAction where
  | publish (releases : List Release)
  | wait (time : Nat)
  | check (prereleases : Bool) (alfred : Option Version) (reached : Bool)
  | install (fetched : Bool)
  /-- Another version of the workflow is put in, by the user or from an opened file. -/
  | replace (version : Version)
  deriving DecidableEq, Repr

/-- The `max_age` of a response. -/
def minute : Nat := 60 * 1000000

/-- `get_downloads`, up to `from_releases`: the response in the cache while it is fresh,
or GitHub's, if it is reached. -/
def getReleases (s : UpdateState) (reached : Bool) : Option (List Release × UpdateState) :=
  match s.response.filter fun r => s.clock - r.1 < minute with
  | some r => some (r.2, s)
  | none => if reached then some (s.releases, { s with response := some (s.clock, s.releases) }) else none

def updateStep (s : UpdateState) : UpdateAction → UpdateState × Installed
  | .publish rs => ({ s with releases := rs }, .nothing)
  | .wait time => ({ s with clock := s.clock + time }, .nothing)
  | .check pre alfred reached =>
    match getReleases s reached with
    | none => (s, .raised)
    | some (rs, t) => ({ t with status := some (checkUpdate rs s.installed pre alfred).2 }, .nothing)
  | .install fetched =>
    ({ s with status := (installUpdate s.status fetched).2 }, (installUpdate s.status fetched).1)
  | .replace version => ({ s with installed := version }, .nothing)

/-- A workflow that has never checked for updates. -/
def neverChecked (version : Version) : UpdateState := ⟨[], 0, none, version, none⟩

/-- The state after some actions. -/
def updated (version : Version) (as : List UpdateAction) : UpdateState := final updateStep (neverChecked version) as

/-- The releases that a check at the end of a run sees, if it does not fail: those that
GitHub lists, if it is reached, or that it listed for a check less than a minute before. -/
inductive Seen (version : Version) : List UpdateAction → Bool → List Release → Prop
  | asked (as : List UpdateAction) : Seen version as true (updated version as).releases
  | cached {as pre post : List UpdateAction} {prereleases : Bool} {alfred : Option Version} (reached : Bool)
      (check : as = pre ++ .check prereleases alfred true :: post)
      (recent : (updated version as).clock < (updated version pre).clock + minute) :
      Seen version as reached (updated version pre).releases

/-- The download that the last check of a run found that did not fail, if nothing was
opened since. -/
inductive Offered (version : Version) : List UpdateAction → Download → Prop
  | found {as : List UpdateAction} {pre reached : Bool} {alfred : Option Version} {rs : List Release} {d : Download}
      (seen : Seen version as reached rs) (newest : Newest rs (updated version as).installed pre alfred d)
      (succeeded : (updateStep (updated version as) (.check pre alfred reached)).2 ≠ .raised) :
      Offered version (as ++ [.check pre alfred reached]) d
  | kept {as : List UpdateAction} {a : UpdateAction} {d : Download} (offered : Offered version as d)
      (unchecked : ∀ pre alfred reached, a = .check pre alfred reached → (updateStep (updated version as) a).2 = .raised)
      (unopened : ∀ url filename, (updateStep (updated version as) a).2 ≠ .opened url filename) :
      Offered version (as ++ [a]) d

theorem updated_snoc (version : Version) (as : List UpdateAction) (a : UpdateAction) :
    updated version (as ++ [a]) = (updateStep (updated version as) a).1 := final_append _ _ _

/-! ### The releases that are seen -/

/-- The response in the cache is what GitHub listed for a check. -/
structure Responded (version : Version) (as : List UpdateAction) (s : UpdateState) : Prop where
  state : s = updated version as
  response : ∀ t rs, s.response = some (t, rs) → ∃ pre prereleases alfred post,
    as = pre ++ .check prereleases alfred true :: post ∧ (updated version pre).releases = rs ∧
      (updated version pre).clock = t

/-- What can happen to a check: it sees the cached response, or asks GitHub, or fails. -/
theorem getReleases_cases (s : UpdateState) (reached : Bool) :
    (∃ t rs, s.response = some (t, rs) ∧ s.clock - t < minute ∧ getReleases s reached = some (rs, s)) ∨
    (reached = true ∧ getReleases s reached = some (s.releases, { s with response := some (s.clock, s.releases) })) ∨
    (reached = false ∧ getReleases s reached = none) := by
  unfold getReleases
  cases hf : s.response.filter fun r => s.clock - r.1 < minute with
  | some r =>
    obtain ⟨hr, hfresh⟩ := Option.filter_eq_some_iff.1 hf
    exact .inl ⟨r.1, r.2, hr, by simpa using hfresh, rfl⟩
  | none => cases reached <;> simp

theorem Responded.step (version : Version) (as : List UpdateAction) (s : UpdateState) (a : UpdateAction)
    (h : Responded version as s) : Responded version (as ++ [a]) (updateStep s a).1 := by
  refine ⟨by rw [h.state, updated_snoc], fun t rs ht => ?_⟩
  -- a response that was in the cache before stays accounted for
  have hkeep (hold : s.response = some (t, rs)) : ∃ pre prereleases alfred post,
      as ++ [a] = pre ++ .check prereleases alfred true :: post ∧ (updated version pre).releases = rs ∧
        (updated version pre).clock = t := by
    obtain ⟨pre, prereleases, alfred, post, rfl, hrs, hclock⟩ := h.response t rs hold
    exact ⟨pre, prereleases, alfred, post ++ [a], by simp, hrs, hclock⟩
  cases a with
  | publish | wait | install | replace => exact hkeep ht
  | check prereleases alfred reached =>
    obtain ⟨t', rs', -, -, hg⟩ | ⟨rfl, hg⟩ | ⟨-, hg⟩ := getReleases_cases s reached
    · simp only [updateStep, hg] at ht
      exact hkeep ht
    · simp only [updateStep, hg] at ht
      obtain ⟨rfl, rfl⟩ := Prod.mk.inj (Option.some.inj ht)
      exact ⟨as, prereleases, alfred, [], rfl, by rw [h.state], by rw [h.state]⟩
    · simp only [updateStep, hg] at ht
      exact hkeep ht

theorem responded (version : Version) (as : List UpdateAction) : Responded version as (updated version as) := by
  have hnone : Responded version [] (neverChecked version) := ⟨rfl, fun _ _ h => by cases h⟩
  exact final_invariant (Responded.step version) hnone as

/-- What a check gets was listed for it, or for one in the last minute. -/
theorem seen_of_getReleases {version : Version} {as : List UpdateAction} {reached : Bool} {rs : List Release}
    {t : UpdateState} (h : getReleases (updated version as) reached = some (rs, t)) : Seen version as reached rs := by
  obtain ⟨w, rs', hr, hfresh, hg⟩ | ⟨rfl, hg⟩ | ⟨-, hg⟩ := getReleases_cases (updated version as) reached
  · obtain ⟨rfl, rfl⟩ := Prod.mk.inj (Option.some.inj (hg.symm.trans h))
    obtain ⟨pre, prereleases, alfred, post, has, hrs, hclock⟩ := (responded version as).response w rs' hr
    rw [← hrs]
    exact .cached reached has (by omega)
  · obtain ⟨rfl, rfl⟩ := Prod.mk.inj (Option.some.inj (hg.symm.trans h))
    exact .asked as
  · rw [hg] at h
    cases h

/-! ### What is installed -/

/-- The status offers a download of some releases. -/
def Offers (status : Option Status) (d : Download) : Prop :=
  ∃ rs version, d ∈ downloads rs ∧ status = some ⟨true, some d.dict, version⟩

theorem installUpdate_unavailable {status : Option Status} (h : updateAvailable status = false) (fetched : Bool) :
    installUpdate status fetched = (.nothing, status) := by
  cases status with
  | none => rfl
  | some s => simp_all [updateAvailable, installUpdate]

theorem Offers.installUpdate {status : Option Status} {d : Download} (h : Offers status d) (fetched : Bool) :
    installUpdate status fetched = if fetched then (.opened d.url d.filename, some noUpdate) else (.raised, status) := by
  obtain ⟨rs, version, hd, rfl⟩ := h
  exact installUpdate_dict hd version fetched

theorem offered_of_available {version : Version} {as : List UpdateAction}
    (h : updateAvailable (updated version as).status = true) :
    ∃ d, Offered version as d ∧ Offers (updated version as).status d := by
  induction as using List.reverseRecOn with
  | nil => cases h
  | append_singleton as a ih =>
    -- an action that is no check and opens nothing leaves the status
    have hkeep : (updateStep (updated version as) a).1.status = (updated version as).status →
        (∀ pre alfred reached, a = .check pre alfred reached → (updateStep (updated version as) a).2 = .raised) →
        (∀ url filename, (updateStep (updated version as) a).2 ≠ .opened url filename) →
        ∃ d, Offered version (as ++ [a]) d ∧ Offers (updated version (as ++ [a])).status d := by
      intro heq hcheck hopen
      rw [updated_snoc, heq] at h ⊢
      obtain ⟨d, hd, hoffers⟩ := ih h
      exact ⟨d, .kept hd hcheck hopen, hoffers⟩
    cases a with
    | publish | wait | replace => exact hkeep rfl (fun _ _ _ h => by cases h) fun _ _ h => by cases h
    | check pre alfred reached =>
      cases hg : getReleases (updated version as) reached with
      | none =>
        refine hkeep (by simp only [updateStep, hg]) (fun _ _ _ _ => by simp only [updateStep, hg]) fun _ _ h => ?_
        simp only [updateStep, hg] at h
        cases h
      | some r =>
        have hseen : Seen version as reached r.1 := seen_of_getReleases hg
        have hsucceeded : (updateStep (updated version as) (.check pre alfred reached)).2 ≠ .raised := by
          simp only [updateStep, hg]
          exact Installed.noConfusion
        rw [updated_snoc] at h ⊢
        simp only [updateStep, hg] at h ⊢
        have hoffer := check_status r.1 (updated version as).installed pre alfred
        rw [hoffer] at h
        obtain ⟨d, hnewest, hstatus⟩ := checkUpdate_true h
        exact ⟨d, .found hseen hnewest hsucceeded, r.1, _, hnewest.mem, congrArg some hstatus⟩
    | install fetched =>
      rw [updated_snoc] at h ⊢
      cases hav : updateAvailable (updated version as).status with
      | false =>
        simp only [updateStep, installUpdate_unavailable hav] at h
        rw [hav] at h
        cases h
      | true =>
        obtain ⟨d, hd, hoffers⟩ := ih hav
        cases fetched with
        | true =>
          simp only [updateStep, hoffers.installUpdate] at h
          cases h
        | false =>
          refine ⟨d, .kept hd (fun _ _ _ h => by cases h) fun _ _ h => ?_, ?_⟩
          · simp only [updateStep, hoffers.installUpdate] at h
            cases h
          · simp only [updateStep, hoffers.installUpdate]
            exact hoffers

/-- All that installing ever opens is the download that the last successful check found,
if nothing was opened since: the newest that may be installed of the releases GitHub
listed for it, or for a check in the minute before, and newer than the version installed
then. -/
theorem installs_offered (version : Version) (as : List UpdateAction) :
    (updateAvailable (updated version as).status = true → ∃ d, Offered version as d ∧
      ∀ fetched, (updateStep (updated version as) (.install fetched)).2 =
        if fetched then .opened d.url d.filename else .raised) ∧
    (updateAvailable (updated version as).status = false →
      ∀ fetched, updateStep (updated version as) (.install fetched) = (updated version as, .nothing)) := by
  refine ⟨fun h => ?_, fun h fetched => ?_⟩
  · obtain ⟨d, hd, hoffers⟩ := offered_of_available h
    refine ⟨d, hd, fun fetched => ?_⟩
    simp only [updateStep, hoffers.installUpdate]
    split <;> rfl
  · simp only [updateStep, installUpdate_unavailable h]

/-- The version is replaced by hand between the check and the install. -/
def someUpdate : List UpdateAction :=
  [.publish someReleases, .check false none true, .replace ⟨.num 3, .num 0, .num 0, [], []⟩]

theorem installs_offered_226 : ∃ d, Offered version225 someUpdate d ∧
    ∀ fetched, (updateStep (updated version225 someUpdate) (.install fetched)).2 =
      if fetched then .opened d.url d.filename else .raised :=
  (installs_offered version225 someUpdate).1 (by decide +kernel)

end ProGuide.Workflow
