import ProGuide.Lib.RegexRules
import ProGuide.Lib.Runs
/-!
# Opening the page of a repository

`opengit` of `bash_profile`. Without an argument it rewrites the URL of the first
remote with three `sed` calls; with one it opens the argument, after a prefix
that lives in a variable of the shell.
-/
open ProGuide.Lib ProGuide.Lib.Text ProGuide.Lib.Regex ProGuide.Lib.Runs

namespace ProGuide.Config.OpenGit

abbrev Str := List Char

/-! ## The function -/

/-- The shells that read the file. An unquoted parameter is split into words by
the second only; a command substitution is split by both. -/
inductive Shell where
  | zsh
  | bash
  deriving DecidableEq, Repr

def isBlank (c : Char) : Bool := c = ' ' || c = '\t' || c = '\n'

/-- The words of an unquoted command substitution. No file matches them. -/
def words (s : Str) : List Str := fields isBlank s

/-- The words of an unquoted parameter. -/
def paramWords : Shell → Str → List Str
  | .zsh, s => if s = [] then [] else [s]
  | .bash, s => words s

def gitAt : Str := "git@".toList

def comColon : Str := "com:".toList

def comSlash : Str := "com/".toList

def gitName : Str := "git".toList

/-- The pattern `.git$`. -/
def anyGit : Re := catAll (.any :: (gitName.map .lit ++ [.anchor .textEnd]))

def httpPrefix : Str := "http://".toList

/-- `sed 's/…/…/g'` on one line. -/
def sed (pattern : Re) (repl line : Str) : Str := Regex.sub {} pattern repl line

/-- The three rewrites of a remote's URL. -/
def rewrite (url : Str) : Str :=
  sed (lits comColon) comSlash (sed anyGit [] (sed (lits gitAt) httpPrefix url))

/-- `git remote -v |head -n 1 |awk '{print $2}'`, from the lines of the first. -/
def firstRemote (remotes : List Str) : Str := (fields isBlank (remotes.headD []))[1]?.getD []

def httpWord : Str := "http".toList

/-- `opengit` with `$url` set to `url` (empty when unset): the words after
`open -n`, and the variable afterwards. -/
def opengit (sh : Shell) (remotes : List Str) (url arg : Str) : Str × List Str :=
  if arg ≠ [] then
    let url := if !contains httpWord arg then httpPrefix else url
    (url, paramWords sh (url ++ arg))
  else (url, words (rewrite (firstRemote remotes)))

/-! ## The rewrites -/

theorem run_anyGit {c : Char} (hc : c ≠ '\n') (b : Str) (k) :
    run {} anyGit ⟨b, c :: gitName, k⟩ = [⟨(c :: gitName).reverse ++ b, [], k⟩] := by
  have hany : run {} .any ⟨b, c :: gitName, k⟩ = [⟨c :: b, gitName, k⟩] := by simp [run, St.eat, hc]
  rw [anyGit, run_catAll_cons, hany, List.flatMap_singleton]
  rfl

/-- The pattern matches the last four characters of the text or nothing. -/
theorem run_anyGit_none {a : Str} (ha : ∀ c, a ≠ c :: gitName) (b : Str) (k) : run {} anyGit ⟨b, a, k⟩ = [] := by
  rw [anyGit, run_catAll_cons]
  cases a with
  | nil => rfl
  | cons c a =>
    have hrest (b' : Str) : run {} (catAll (gitName.map .lit ++ [.anchor .textEnd])) ⟨b', a, k⟩ = [] := by
      by_cases hp : gitName <+: a
      · obtain ⟨t, rfl⟩ := hp
        have ht : t ≠ [] := by
          rintro rfl
          exact ha c (by rw [List.append_nil])
        rw [run_lits_append _ rfl]
        simp [catAll, run, Anchor.holds, ht]
      · exact run_lits_append_none _ rfl hp b' k _
    simp only [run, St.eat]
    split
    · rw [List.flatMap_singleton, hrest]
    · rfl

theorem silent_anyGit {x t : Str} (h : ∀ u v, x = u ++ v → v ≠ [] → ∀ c, v ++ t ≠ c :: gitName) :
    Silent (run {} anyGit) x t := by
  induction x with
  | nil => trivial
  | cons d x ih =>
    refine ⟨fun b => run_anyGit_none (h [] (d :: x) rfl (List.cons_ne_nil _ _)) b [], ih fun u v huv => ?_⟩
    exact h (d :: u) v (by rw [huv]; rfl)

theorem anyGit_end (b : Str) : run {} anyGit ⟨b, [], []⟩ = [] :=
  run_anyGit_none (fun _ h => by cases h) b []

/-- Four characters go, whatever the first of them is. -/
theorem sed_anyGit (x : Str) {c : Char} (hc : c ≠ '\n') : sed anyGit [] (x ++ c :: gitName) = x := by
  have hx : Silent (run {} anyGit) x (c :: gitName ++ []) := by
    apply silent_anyGit
    intro u v _ hv d h
    have hlen := congrArg List.length h
    have hpos := List.length_pos_iff.2 hv
    simp only [List.length_append, List.length_cons, List.length_nil] at hlen
    omega
  have hmatch (b : Str) : ∃ k ts, run {} anyGit ⟨b, c :: gitName ++ [], []⟩ = ⟨(c :: gitName).reverse ++ b, [], k⟩ :: ts := by
    rw [List.append_nil, run_anyGit hc]
    exact ⟨[], [], rfl⟩
  have h := sub_once {} [] (List.cons_ne_nil c gitName) hx hmatch trivial anyGit_end
  rw [List.append_nil, List.append_nil, List.append_nil] at h
  exact h

theorem sed_anyGit_none {s : Str} (h : ∀ x c, s ≠ x ++ c :: gitName) : sed anyGit [] s = s := by
  refine sub_silent {} [] (silent_anyGit fun u v huv _ c hv => h u c ?_) anyGit_end
  rw [List.append_nil] at hv
  rw [huv, hv]

/-! ## Remotes -/

inductive Scheme where
  | scp
  | http
  | https
  deriving DecidableEq, Repr

/-- What no part of a remote holds. -/
def Clean (s : Str) : Prop := ∀ c ∈ s, isBlank c = false ∧ c ≠ '@' ∧ c ≠ ':'

/-- A remote `git@host:path` or `http(s)://host/path`, under its name. -/
structure Remote where
  name : Str
  scheme : Scheme
  host : Str
  path : Str
  name_ne : name ≠ []
  name_word : ∀ c ∈ name, isBlank c = false
  host_clean : Clean host
  path_clean : Clean path

/-- What a URL starts with, before the host. -/
def Scheme.front : Scheme → Str
  | .scp => gitAt
  | .http => httpPrefix
  | .https => "https://".toList

/-- What stands between host and path. -/
def Scheme.delim : Scheme → Char
  | .scp => ':'
  | _ => '/'

def Remote.url (r : Remote) : Str := r.scheme.front ++ (r.host ++ r.scheme.delim :: r.path)

def dotGit : Str := ".git".toList

/-- The path without the suffix `.git`. -/
def stripGit (path : Str) : Str := if dotGit <:+ path then path.take (path.length - 4) else path

/-- The page of a remote. -/
def Remote.page (r : Remote) : Str :=
  (if r.scheme = .scp then httpPrefix else r.scheme.front) ++ (r.host ++ '/' :: stripGit r.path)

/-- The line `git remote -v` prints for a remote. -/
def Remote.line (r : Remote) : Str := r.name ++ '\t' :: (r.url ++ " (fetch)".toList)

def comName : Str := "com".toList

/-- Only a literal `.git` looks like one to the second rewrite. -/
def GitOk (path : Str) : Prop := dotGit <:+ path ∨ ¬ gitName <:+ path

instance (path : Str) : Decidable (GitOk path) := inferInstanceAs (Decidable (_ ∨ _))

theorem git_of_dotGit {path : Str} (h : dotGit <:+ path) : gitName <:+ path := by
  have hgit : gitName <:+ dotGit := ⟨['.'], rfl⟩
  exact hgit.trans h

/-- A path ends in `git` not at all, is `git`, or has a character before it. -/
theorem path_cases (path : Str) :
    ¬ gitName <:+ path ∨ path = gitName ∨ ∃ x c, path = x ++ c :: gitName := by
  by_cases h : gitName <:+ path
  · obtain ⟨x, rfl⟩ := h
    rcases List.eq_nil_or_concat x with rfl | ⟨x, c, rfl⟩
    · exact Or.inr (Or.inl rfl)
    · exact Or.inr (Or.inr ⟨x, c, by simp⟩)
  · exact Or.inl h

theorem dotGit_cut (x : Str) (c : Char) : dotGit <:+ x ++ c :: gitName ↔ c = '.' := by
  constructor
  · intro h
    have hsame : dotGit <:+ c :: gitName := List.suffix_of_suffix_length_le h (List.suffix_append _ _) (Nat.le_refl _)
    have heq := hsame.eq_of_length rfl
    exact (List.cons.inj heq).1.symm
  · rintro rfl
    exact List.suffix_append _ _

theorem gitOk_cut (x : Str) (c : Char) : GitOk (x ++ c :: gitName) ↔ c = '.' := by
  have hgit : gitName <:+ x ++ c :: gitName := (List.suffix_cons c gitName).trans (List.suffix_append _ _)
  rw [GitOk, dotGit_cut]
  simp [hgit]

theorem stripGit_cut (x : Str) (c : Char) :
    stripGit (x ++ c :: gitName) = if c = '.' then x else x ++ c :: gitName := by
  have hlen : (x ++ c :: gitName).length - 4 = x.length := by
    rw [List.length_append]
    rfl
  simp only [stripGit, dotGit_cut, hlen, List.take_left]

theorem stripGit_free {path : Str} (h : ¬ gitName <:+ path) : stripGit path = path :=
  if_neg fun hd => h (git_of_dotGit hd)

/-! ## What the rewrites make of a remote -/

/-- What the page's URL starts with. -/
def Scheme.pageFront : Scheme → Str
  | .scp => httpPrefix
  | s => s.front

theorem Clean.not_mem {s : Str} (h : Clean s) {c : Char} (hc : isBlank c = true ∨ c = '@' ∨ c = ':') : c ∉ s := by
  intro hm
  obtain ⟨hb, ha, hk⟩ := h c hm
  rcases hc with hc | hc | hc
  · rw [hb] at hc
    cases hc
  · exact ha hc
  · exact hk hc

/-- The first rewrite changes the front of the URL. -/
theorem sed_gitAt (r : Remote) : sed (lits gitAt) httpPrefix r.url =
    r.scheme.pageFront ++ (r.host ++ r.scheme.delim :: r.path) := by
  have hhost := r.host_clean.not_mem (c := '@') (Or.inr (Or.inl rfl))
  have hpath := r.path_clean.not_mem (c := '@') (Or.inr (Or.inl rfl))
  have hrest : '@' ∉ r.host ++ r.scheme.delim :: r.path := by
    cases r.scheme <;> simp [Scheme.delim, hhost, hpath]
  have hne : gitAt ≠ [] := List.cons_ne_nil _ _
  unfold sed Remote.url
  cases hs : r.scheme with
  | scp =>
    rw [hs] at hrest
    have hx : NoStart gitAt [] (gitAt ++ (r.host ++ Scheme.scp.delim :: r.path)) := trivial
    exact sub_lits_once {} rfl hne hx (noStart_of_missing (by decide) hrest)
  | http =>
    rw [hs] at hrest
    refine sub_lits_none {} rfl hne (noStart_of_missing (c := '@') (by decide) ?_)
    rw [List.mem_append, not_or]
    exact ⟨by decide, hrest⟩
  | https =>
    rw [hs] at hrest
    refine sub_lits_none {} rfl hne (noStart_of_missing (c := '@') (by decide) ?_)
    rw [List.mem_append, not_or]
    exact ⟨by decide, hrest⟩

/-- What the second rewrite leaves of the delimiter and the path. -/
inductive Left (d : Char) (path : Str) : Str → Prop where
  | free (h : ¬ gitName <:+ path) : Left d path (d :: path)
  | all (h : path = gitName) : Left d path []
  | cut (x : Str) (c : Char) (h : path = x ++ c :: gitName) : Left d path (d :: x)

theorem sed_anyGit_left (r : Remote) (front : Str) : ∃ tail, Left r.scheme.delim r.path tail ∧
    sed anyGit [] (front ++ (r.host ++ r.scheme.delim :: r.path)) = front ++ (r.host ++ tail) := by
  have hdelim : r.scheme.delim ∉ gitName ∧ r.scheme.delim ≠ '\n' := by cases r.scheme <;> decide
  rcases path_cases r.path with hfree | hall | ⟨x, c, hcut⟩
  · refine ⟨_, .free hfree, sed_anyGit_none fun y c heq => hfree ?_⟩
    have hgit : gitName <:+ front ++ (r.host ++ r.scheme.delim :: r.path) := by
      rw [heq]
      exact (List.suffix_cons c gitName).trans (List.suffix_append _ _)
    have hpath : r.scheme.delim :: r.path <:+ front ++ (r.host ++ r.scheme.delim :: r.path) :=
      (List.suffix_append _ _).trans (List.suffix_append _ _)
    rcases List.suffix_or_suffix_of_suffix hgit hpath with h | h
    · rcases List.suffix_cons_iff.1 h with h | h
      · exact absurd (h ▸ List.mem_cons_self) hdelim.1
      · exact h
    · exact absurd (h.subset List.mem_cons_self) hdelim.1
  · refine ⟨_, .all hall, ?_⟩
    have h := sed_anyGit (front ++ r.host) hdelim.2
    rw [hall, List.append_nil]
    rw [List.append_assoc] at h
    exact h
  · refine ⟨_, .cut x c hcut, ?_⟩
    have hc : c ≠ '\n' := by
      rintro rfl
      exact r.path_clean.not_mem (c := '\n') (Or.inl rfl) (by rw [hcut]; simp)
    have h := sed_anyGit (front ++ (r.host ++ r.scheme.delim :: x)) hc
    rw [hcut]
    simpa using h

/-! ## The third rewrite -/

theorem comColon_eq : comColon = comName ++ [':'] := by decide +kernel

theorem comSlash_eq : comSlash = comName ++ ['/'] := by decide +kernel

/-- `com:` starts in a host at most at its end. -/
theorem noStart_com {v : Str} (hv : ':' ∉ v) (hc : ¬ comName <:+ v) (y : Str) : NoStart comColon v (':' :: y) := by
  induction v with
  | nil => trivial
  | cons d v ih =>
    refine ⟨fun hp => hc ?_, ih (fun h => hv (List.mem_cons_of_mem d h)) fun h => hc (h.trans (List.suffix_cons d v))⟩
    have heq : comName = d :: v := eq_of_prefix_delim (by decide) hv hp
    rw [heq]

theorem noStart_before_com {v : Str} (hv : ':' ∉ v) (y : Str) : NoStart comColon v (comColon ++ y) := by
  induction v with
  | nil => trivial
  | cons d v ih =>
    refine ⟨fun hp => ?_, ih fun h => hv (List.mem_cons_of_mem d h)⟩
    have hno : ':' ∉ d :: v ++ comName := by
      rw [List.mem_append, not_or]
      exact ⟨hv, by decide⟩
    have hp' : comName ++ ':' :: [] <+: (d :: v ++ comName) ++ ':' :: y := by
      rw [comColon_eq] at hp
      simpa only [List.append_assoc, List.singleton_append, List.cons_append, List.nil_append] using hp
    have hlen := congrArg List.length (eq_of_prefix_delim (by decide) hno hp')
    simp only [List.length_append, List.length_cons] at hlen
    omega

section Colon
variable {front v y : Str} (hfront : 'c' ∉ front) (hv : ':' ∉ v) (hy : ':' ∉ y)
include hfront

theorem sed_com_free (hv : ':' ∉ v) : sed (lits comColon) comSlash (front ++ v) = front ++ v := by
  refine sub_lits_none {} rfl (List.cons_ne_nil _ _) ?_
  rw [noStart_append]
  exact ⟨noStart_of_not_mem hfront _, noStart_of_missing (c := ':') (by decide) hv⟩

include hv hy

theorem sed_com_other (hc : ¬ comName <:+ v) :
    sed (lits comColon) comSlash (front ++ (v ++ ':' :: y)) = front ++ (v ++ ':' :: y) := by
  have hchars : comColon = ['c', 'o', 'm', ':'] := by decide +kernel
  have hhead : ¬ comColon <+: ':' :: y ++ [] := by
    rw [hchars]
    simp [List.cons_prefix_cons]
  have hstop : NoStart comColon (':' :: y) [] := ⟨hhead, noStart_of_missing (c := ':') (by decide) hy⟩
  refine sub_lits_none {} rfl (List.cons_ne_nil _ _) ?_
  rw [noStart_append, noStart_append, List.append_nil]
  refine ⟨noStart_of_not_mem hfront _, ?_, hstop⟩
  rw [List.append_nil]
  exact noStart_com hv hc y

theorem sed_com_host : sed (lits comColon) comSlash (front ++ ((v ++ comName) ++ ':' :: y)) =
    front ++ ((v ++ comName) ++ '/' :: y) := by
  have hcolon : front ++ ((v ++ comName) ++ ':' :: y) = (front ++ v) ++ (comColon ++ y) := by
    rw [comColon_eq]
    simp only [List.append_assoc, List.singleton_append]
  have hslash : front ++ ((v ++ comName) ++ '/' :: y) = (front ++ v) ++ (comSlash ++ y) := by
    rw [comSlash_eq]
    simp only [List.append_assoc, List.singleton_append]
  have hbefore : NoStart comColon (front ++ v) (comColon ++ y) := by
    rw [noStart_append]
    exact ⟨noStart_of_not_mem hfront _, noStart_before_com hv y⟩
  rw [hcolon, hslash]
  exact sub_lits_once {} rfl (List.cons_ne_nil _ _) hbefore (noStart_of_missing (c := ':') (by decide) hy)

end Colon

/-- What the third rewrite makes of the delimiter. -/
def Remote.openedDelim (r : Remote) : Char := if r.scheme = .scp ∧ ¬ comName <:+ r.host then ':' else '/'

theorem Left.free_of_colon {d : Char} {path tail : Str} (hpath : ':' ∉ path) (h : Left d path tail) :
    tail = [] ∨ ∃ y, tail = d :: y ∧ ':' ∉ y := by
  cases h with
  | free _ => exact Or.inr ⟨path, rfl, hpath⟩
  | all _ => exact Or.inl rfl
  | cut x c hx => exact Or.inr ⟨x, rfl, fun hm => hpath (by rw [hx]; exact List.mem_append_left _ hm)⟩

theorem Left.with_delim {d : Char} (d' : Char) {path y : Str} (h : Left d path (d :: y)) : Left d' path (d' :: y) := by
  cases h with
  | free h => exact .free h
  | cut _ c h => exact .cut y c h

/-- The third rewrite changes at most the delimiter. -/
theorem sed_com (r : Remote) {tail : Str} (h : Left r.scheme.delim r.path tail) :
    ∃ tail', Left r.openedDelim r.path tail' ∧
      sed (lits comColon) comSlash (r.scheme.pageFront ++ (r.host ++ tail)) = r.scheme.pageFront ++ (r.host ++ tail') := by
  have hhost : ':' ∉ r.host := r.host_clean.not_mem (Or.inr (Or.inr rfl))
  have hpath : ':' ∉ r.path := r.path_clean.not_mem (Or.inr (Or.inr rfl))
  have hfront : 'c' ∉ r.scheme.pageFront := by cases r.scheme <;> decide
  rcases h.free_of_colon hpath with rfl | ⟨y, rfl, hy⟩
  · have hall : Left r.openedDelim r.path [] := by
      cases h with
      | all h => exact .all h
    refine ⟨[], hall, sed_com_free hfront ?_⟩
    rwa [List.append_nil]
  · refine ⟨_, h.with_delim r.openedDelim, ?_⟩
    cases hs : r.scheme with
    | scp =>
      rw [hs] at hfront
      by_cases hc : comName <:+ r.host
      · obtain ⟨v, hv⟩ := hc
        have hv' : ':' ∉ v := fun hm => hhost (by rw [← hv]; exact List.mem_append_left _ hm)
        have hdelim : r.openedDelim = '/' := if_neg fun hn => hn.2 ⟨v, hv⟩
        rw [hdelim, ← hv]
        exact sed_com_host hfront hv' hy
      · have hdelim : r.openedDelim = ':' := if_pos ⟨hs, hc⟩
        rw [hdelim]
        exact sed_com_other hfront hhost hy hc
    | http =>
      rw [hs] at hfront
      have hdelim : r.openedDelim = '/' := if_neg fun hn => by simp [hs] at hn
      rw [hdelim]
      exact sed_com_free hfront (by simp [Scheme.delim, hhost, hy])
    | https =>
      rw [hs] at hfront
      have hdelim : r.openedDelim = '/' := if_neg fun hn => by simp [hs] at hn
      rw [hdelim]
      exact sed_com_free hfront (by simp [Scheme.delim, hhost, hy])

/-! ## The page that is opened -/

theorem rewrite_url (r : Remote) : ∃ tail, Left r.openedDelim r.path tail ∧
    rewrite r.url = r.scheme.pageFront ++ (r.host ++ tail) := by
  obtain ⟨tail, hleft, hany⟩ := sed_anyGit_left r r.scheme.pageFront
  obtain ⟨tail', hleft', hcom⟩ := sed_com r hleft
  exact ⟨tail', hleft', by rw [rewrite, sed_gitAt, hany, hcom]⟩

theorem Left.eq_page_iff {d : Char} {path tail : Str} (h : Left d path tail) :
    tail = '/' :: stripGit path ↔ GitOk path ∧ d = '/' := by
  cases h with
  | free h =>
    rw [stripGit_free h, List.cons.injEq, GitOk]
    simp [h]
  | all h =>
    subst h
    have hno : ¬ GitOk gitName := by decide
    simp [hno]
  | cut x c h =>
    subst h
    rw [List.cons.injEq, stripGit_cut, gitOk_cut, and_comm]
    refine and_congr_left fun _ => ?_
    by_cases hc : c = '.'
    · simp [hc]
    · simp [hc]

theorem page_eq (r : Remote) : r.page = r.scheme.pageFront ++ (r.host ++ '/' :: stripGit r.path) := by
  unfold Remote.page
  cases r.scheme <;> rfl

theorem rewrite_eq_page_iff (r : Remote) :
    rewrite r.url = r.page ↔ GitOk r.path ∧ (r.scheme = .scp → comName <:+ r.host) := by
  obtain ⟨tail, hleft, hurl⟩ := rewrite_url r
  rw [hurl, page_eq, List.append_right_inj, List.append_right_inj, hleft.eq_page_iff]
  refine and_congr_right fun _ => ?_
  unfold Remote.openedDelim
  by_cases hs : r.scheme = .scp <;> by_cases hc : comName <:+ r.host <;> simp [hs, hc]

theorem Clean.no_blank {s : Str} (h : Clean s) : ∀ c ∈ s, isBlank c = false := fun c hc => (h c hc).1

theorem url_no_blank (r : Remote) : ∀ c ∈ r.url, isBlank c = false := by
  have hfront : ∀ c ∈ r.scheme.front, isBlank c = false := by cases r.scheme <;> exact forall_mem_of_all rfl
  have hdelim : isBlank r.scheme.delim = false := by cases r.scheme <;> rfl
  rw [Remote.url, List.forall_mem_append, List.forall_mem_append, List.forall_mem_cons]
  exact ⟨hfront, r.host_clean.no_blank, hdelim, r.path_clean.no_blank⟩

theorem Left.no_blank {d : Char} {path tail : Str} (hd : isBlank d = false) (hpath : Clean path) (h : Left d path tail) :
    ∀ c ∈ tail, isBlank c = false := by
  cases h with
  | free _ => exact List.forall_mem_cons.2 ⟨hd, hpath.no_blank⟩
  | all _ => exact fun c hc => absurd hc List.not_mem_nil
  | cut x c hx =>
    refine List.forall_mem_cons.2 ⟨hd, fun b hb => hpath.no_blank b ?_⟩
    rw [hx]
    exact List.mem_append_left _ hb

/-- The shell hands on the rewritten URL as one word. -/
theorem words_rewrite (r : Remote) : words (rewrite r.url) = [rewrite r.url] := by
  obtain ⟨tail, hleft, hurl⟩ := rewrite_url r
  have hfront : ∀ c ∈ r.scheme.pageFront, isBlank c = false := by cases r.scheme <;> exact forall_mem_of_all rfl
  have hne : r.scheme.pageFront ≠ [] := by cases r.scheme <;> exact List.cons_ne_nil _ _
  have hdelim : isBlank r.openedDelim = false := by
    unfold Remote.openedDelim
    split <;> rfl
  rw [words, fields_eq_self_iff, hurl, List.forall_mem_append, List.forall_mem_append]
  refine ⟨⟨hfront, r.host_clean.no_blank, hleft.no_blank hdelim r.path_clean⟩, ?_⟩
  rw [Ne, List.append_eq_nil_iff, not_and_or]
  exact Or.inl hne

theorem firstRemote_line (r : Remote) (rest : List Str) : firstRemote (r.line :: rest) = r.url := by
  have hne : r.url ≠ [] := by
    unfold Remote.url
    cases r.scheme <;> exact List.cons_ne_nil _ _
  have hfetch : r.url ++ " (fetch)".toList = r.url ++ ' ' :: "(fetch)".toList := rfl
  rw [firstRemote, List.headD_cons, Remote.line, fields_cons r.name_word r.name_ne rfl, hfetch,
    fields_cons (url_no_blank r) hne rfl]
  rfl

/-- The page of the first remote is opened exactly when only a literal `.git`
goes, and the host of an scp-like URL ends in `com`. -/
theorem opengit_page_iff (sh : Shell) (r : Remote) (rest : List Str) (url : Str) :
    (opengit sh (r.line :: rest) url []).2 = [r.page] ↔ GitOk r.path ∧ (r.scheme = .scp → comName <:+ r.host) := by
  rw [opengit, if_neg (by simp), firstRemote_line, words_rewrite, List.singleton_inj, rewrite_eq_page_iff]

/-- A remote of a host that does not end in `com`. -/
def gitlab : Remote where
  name := "origin".toList
  scheme := .scp
  host := "gitlab.org".toList
  path := "group/project.git".toList
  name_ne := by decide
  name_word := forall_mem_of_all rfl
  host_clean := forall_mem_of_all rfl
  path_clean := forall_mem_of_all rfl

/-- Its colon stays. -/
theorem gitlab_keeps_colon : (opengit .bash [gitlab.line] [] []).2 = ["http://gitlab.org:group/project".toList] ∧
    gitlab.page = "http://gitlab.org/group/project".toList ∧
      (opengit .bash [gitlab.line] [] []).2 ≠ [gitlab.page] := by
  decide +kernel

/-! ## Sessions -/

/-- The argument of a call, not empty. -/
abbrev Arg := {a : Str // a ≠ []}

/-- The address an argument stands for. -/
def address (a : Str) : Str := if contains httpWord a then a else httpPrefix ++ a

/-- A call of a session: the state is the shell's `url`. -/
def call (sh : Shell) (remotes : List Str) (url : Str) (a : Arg) : Str × List Str := opengit sh remotes url a.1

/-- The argument brings its own scheme. -/
def full (a : Arg) : Bool := contains httpWord a.1

/-- The variable after some calls, in a shell where it was unset. -/
def urlAfter (pre : List Arg) : Str := if pre.all full then [] else httpPrefix

/-- No earlier call leaves its prefix for this one, and the shell takes the
argument for one word. -/
def Alone (sh : Shell) (pre : List Arg) (a : Arg) : Prop :=
  (full a = true → pre.all full = true) ∧ (sh = .bash → ∀ c ∈ a.1, isBlank c = false)

theorem paramWords_eq_self_iff (sh : Shell) (s : Str) :
    paramWords sh s = [s] ↔ (sh = .bash → ∀ c ∈ s, isBlank c = false) ∧ s ≠ [] := by
  cases sh with
  | zsh => simp [paramWords]
  | bash =>
    rw [paramWords, words, fields_eq_self_iff]
    simp

/-- With a prefix before it the argument is not what is opened. -/
theorem paramWords_prefixed (sh : Shell) {x : Str} (hx : ∀ c ∈ x, isBlank c = false) (hne : x ≠ []) (a : Str) :
    paramWords sh (x ++ a) ≠ [a] := by
  intro h
  have hself : paramWords sh (x ++ a) = [x ++ a] := by
    rw [paramWords_eq_self_iff]
    refine ⟨?_, by simp [hne]⟩
    rintro rfl
    -- the only word is the argument, so the argument holds no blank either
    have ha : ∀ c ∈ a, isBlank c = false := fields_free (h ▸ List.mem_singleton.2 rfl)
    exact List.forall_mem_append.2 ⟨hx, ha⟩
  rw [hself, List.singleton_inj] at h
  have hlen := congrArg List.length h
  have hpos := List.length_pos_iff.2 hne
  rw [List.length_append] at hlen
  omega

theorem call_eq (sh : Shell) (remotes : List Str) (url : Str) (a : Arg) : call sh remotes url a =
    let url := if full a then url else httpPrefix
    (url, paramWords sh (url ++ a.1)) := by
  rw [call, opengit, if_pos a.2, full]
  cases contains httpWord a.1 <;> rfl

theorem urlAfter_append (pre : List Arg) (a : Arg) :
    urlAfter (pre ++ [a]) = if full a then urlAfter pre else httpPrefix := by
  unfold urlAfter
  rw [List.all_append, List.all_cons, List.all_nil, Bool.and_true]
  cases full a <;> cases pre.all full <;> rfl

/-- The variable tells whether an earlier argument lacked `http`. -/
theorem call_describes (sh : Shell) (remotes : List Str) :
    Describes (call sh remotes) fun pre url => url = urlAfter pre := by
  rintro pre _ a rfl
  rw [call_eq, urlAfter_append]

theorem call_right_iff (sh : Shell) (remotes : List Str) (pre : List Arg) (a : Arg) :
    (call sh remotes (urlAfter pre) a).2 = [address a.1] ↔ Alone sh pre a := by
  have hblank : ∀ c ∈ httpPrefix, isBlank c = false := forall_mem_of_all rfl
  have hne : httpPrefix ≠ [] := List.cons_ne_nil _ _
  have haddress : address a.1 = if full a then a.1 else httpPrefix ++ a.1 := rfl
  rw [call_eq, haddress, Alone, urlAfter]
  cases full a with
  | true =>
    cases pre.all full with
    | true => simpa [a.2] using paramWords_eq_self_iff sh a.1
    | false => simpa using paramWords_prefixed sh hblank hne a.1
  | false =>
    have hwords : (∀ c ∈ httpPrefix ++ a.1, isBlank c = false) ↔ ∀ c ∈ a.1, isBlank c = false := by
      rw [List.forall_mem_append]
      exact and_iff_right hblank
    have hself := paramWords_eq_self_iff sh (httpPrefix ++ a.1)
    rw [hwords] at hself
    simpa [a.2] using hself

/-- Every call of a session opens its own address exactly when no argument with
`http` comes after one without, and the shell takes each for one word. -/
theorem session_right_iff (sh : Shell) (remotes : List Str) (args : List Arg) :
    List.Forall₂ (fun a opened => opened = [address a.1]) args (outputs (call sh remotes) [] args) ↔
      ∀ pre a post, args = pre ++ a :: post → Alone sh pre a := by
  have hunset : [] = urlAfter [] := rfl
  refine outputs_right_iff (call_describes sh remotes) ?_ hunset args
  rintro pre _ a rfl
  exact call_right_iff sh remotes pre a

def hostArg : Arg := ⟨"github.com".toList, by decide⟩

def fullArg : Arg := ⟨"https://go.dev".toList, by decide⟩

/-- The second call opens its argument after the prefix of the first. -/
theorem prefix_left_over : outputs (call .zsh []) [] [hostArg, fullArg] =
    [["http://github.com".toList], ["http://https://go.dev".toList]] ∧
      ¬ List.Forall₂ (fun a opened => opened = [address a.1]) [hostArg, fullArg]
        (outputs (call .zsh []) [] [hostArg, fullArg]) := by
  have hrun : outputs (call .zsh []) [] [hostArg, fullArg] =
      [["http://github.com".toList], ["http://https://go.dev".toList]] := by decide +kernel
  refine ⟨hrun, ?_⟩
  rw [hrun]
  rintro (_ | ⟨-, h⟩)
  rcases h with _ | ⟨h, -⟩
  revert h
  decide

end ProGuide.Config.OpenGit
