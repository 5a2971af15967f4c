import RootedC.Command.FileTree
import RootedC.Proofs.Outcome

/-!
What the operations on a tree of files leave as it was. Writing a text changes the file at the place
that its path leads to and nothing else; making a directory changes no file at all. Directories stay
directories, so a path leads to the same place before and after. A path that a file was read from
ends in the name of the file.
-/
namespace RootedC.Command

namespace FileTree

/-- What is in the file at a place, if there is a file. -/
def content? (t : FileTree) (place : List String) : Option ByteArray :=
  match t.get? place with
  | some (.file content) => some content
  | _ => none

/-- A path leads to a place. -/
def Leads (t : FileTree) (path : String) (place : List String) : Prop :=
  t.follow path (Path.names path) = .ok place

/-- Whatever exists stands in a directory. -/
def WellFormed (t : FileTree) : Prop :=
  ∀ place e, t.get? place = some e → place ≠ [] → t.get? place.dropLast = some .directory

/-- Whether every entry of the list stands in a directory. -/
def isWellFormed (t : FileTree) : Bool :=
  t.entries.all fun p => t.get? p.1.dropLast matches some .directory

/-- A later tree has all directories of an earlier one. -/
def KeepsDirectories (t t' : FileTree) : Prop :=
  ∀ place, t.get? place = some .directory → t'.get? place = some .directory

section Put
variable {place other : List String}

theorem get?_of_ne_nil (t : FileTree) (h : place ≠ []) : t.get? place = t.entries.lookup place := by
  cases place with
  | nil => exact absurd rfl h
  | cons name more => rfl

theorem wellFormed_of_isWellFormed {t : FileTree} (h : t.isWellFormed = true) : t.WellFormed := by
  intro place e hplace hne
  rw [get?_of_ne_nil t hne] at hplace
  obtain ⟨before, after, hentries, -⟩ := List.lookup_eq_some_iff.mp hplace
  have hparent := List.all_eq_true.mp h (place, e) (by simp [hentries])
  simp only at hparent
  split at hparent
  · assumption
  · cases hparent

theorem get?_put_self (t : FileTree) (e : Entry) (h : place ≠ []) :
    (t.put place e).get? place = some e := by
  rw [get?_of_ne_nil _ h]
  simp [put]

theorem lookup_filter_of_ne (h : other ≠ place) (entries : List (List String × Entry)) :
    (entries.filter (·.1 ≠ place)).lookup other = entries.lookup other := by
  induction entries with
  | nil => rfl
  | cons p more ih =>
    obtain ⟨q, e⟩ := p
    by_cases hq : q = place
    · have hne : (other == q) = false := beq_eq_false_iff_ne.mpr (hq ▸ h)
      simp only [List.filter_cons, hq, ne_eq, not_true_eq_false, decide_false, List.lookup_cons]
      rw [← hq, hne]
      simpa [hq] using ih
    · simp only [List.filter_cons, hq, ne_eq, not_false_eq_true, decide_true, if_true,
        List.lookup_cons]
      rw [← ih]

theorem get?_put_of_ne (t : FileTree) (e : Entry) (h : other ≠ place) :
    (t.put place e).get? other = t.get? other := by
  by_cases hother : other = []
  · subst hother
    rfl
  · have hne : (other == place) = false := beq_eq_false_iff_ne.mpr h
    rw [get?_of_ne_nil _ hother, get?_of_ne_nil _ hother, put, List.lookup_cons, hne]
    exact lookup_filter_of_ne h t.entries

theorem keepsDirectories_put {t : FileTree} (e : Entry) (h : t.get? place ≠ some .directory) :
    t.KeepsDirectories (t.put place e) := by
  intro other hother
  rw [get?_put_of_ne]
  · exact hother
  · rintro rfl
    exact h hother

end Put

section Follow
variable {t t' : FileTree} {place : List String}

/-- Only in a directory can a name be looked up. -/
theorem step_eq_ok {name : String} {next : List String} (h : t.step place name = .ok next) :
    t.get? place = some .directory ∧ ((name = "." ∧ next = place) ∨
      (name = ".." ∧ next = place.dropLast) ∨
      name ≠ "." ∧ name ≠ ".." ∧ next = place ++ [name]) := by
  unfold step at h
  split at h
  · cases h
  · next hdir =>
    refine ⟨hdir, ?_⟩
    split at h
    · next hname =>
      cases h
      exact .inl ⟨hname, rfl⟩
    · split at h
      · next hname =>
        cases h
        exact .inr (.inl ⟨hname, rfl⟩)
      · split at h
        · cases h
        · next hdot hdots _ =>
          cases h
          exact .inr (.inr ⟨hdot, hdots, rfl⟩)
  · cases h

theorem step_keeps {name : String} {next : List String} (hk : t.KeepsDirectories t')
    (h : t.step place name = .ok next) : t'.step place name = .ok next := by
  have hdir := (step_eq_ok h).1
  rw [← h, step, step, hdir, hk place hdir]

theorem walk_keeps {names : List String} {last : List String} (hk : t.KeepsDirectories t')
    (h : t.walk place names = .ok last) : t'.walk place names = .ok last := by
  induction names generalizing place with
  | nil => exact h
  | cons name more ih =>
    obtain ⟨next, hstep, hmore⟩ := except_bind_eq_ok.mp h
    exact except_bind_eq_ok.mpr ⟨next, step_keeps hk hstep, ih hmore⟩

theorem follow_eq_ok {path : String} {names : List String} :
    t.follow path names = .ok place ↔
      path ≠ "" ∧ path.utf8ByteSize ≤ pathLimit ∧ t.walk (start path) names = .ok place := by
  unfold follow
  by_cases hpath : path = ""
  · simp [hpath]
  · by_cases hlimit : pathLimit < path.utf8ByteSize
    · simp [hpath, hlimit, Nat.not_le_of_lt hlimit]
    · simp [hpath, hlimit, Nat.le_of_not_lt hlimit]

theorem Leads.keeps {path : String} (h : t.Leads path place) (hk : t.KeepsDirectories t') :
    t'.Leads path place := by
  obtain ⟨hpath, hlimit, hwalk⟩ := follow_eq_ok.mp h
  exact follow_eq_ok.mpr ⟨hpath, hlimit, walk_keeps hk hwalk⟩

theorem walk_append {names more : List String} {last : List String} :
    t.walk place (names ++ more) = .ok last ↔
      ∃ middle, t.walk place names = .ok middle ∧ t.walk middle more = .ok last := by
  induction names generalizing place with
  | nil => simp [walk]
  | cons name rest ih =>
    simp only [List.cons_append, walk, except_bind_eq_ok, ih]
    constructor
    · rintro ⟨next, hstep, middle, hrest, hmore⟩
      exact ⟨middle, ⟨next, hstep, hrest⟩, hmore⟩
    · rintro ⟨middle, ⟨next, hstep, hrest⟩, hmore⟩
      exact ⟨next, hstep, middle, hrest, hmore⟩

end Follow

section Write
variable {t t' : FileTree} {path text : String}

/-- A text is written to the place that the path leads to, or forgotten there. -/
theorem writeText_eq_ok (h : t.writeText path text = .ok t') :
    ∃ place, t.Leads path place ∧ t.get? place ≠ some .directory ∧
      ((t.get? place = some .sink ∧ t' = t) ∨ t' = t.put place (.file text.toUTF8)) := by
  unfold writeText at h
  split at h
  · obtain ⟨_, -, h⟩ := except_bind_eq_ok.mp h
    cases h
  · obtain ⟨place, hplace, h⟩ := except_bind_eq_ok.mp h
    refine ⟨place, hplace, ?_⟩
    split at h
    · cases h
    · next hsink =>
      cases h
      exact ⟨by rw [hsink]; nofun, .inl ⟨hsink, rfl⟩⟩
    · next hdir hsink =>
      cases h
      exact ⟨hdir, .inr rfl⟩

/-- After a text was written its path leads to it, or to where texts are forgotten, and every other
file is as it was. -/
theorem writeText_frame (h : t.writeText path text = .ok t') :
    ∃ place, t'.Leads path place ∧
      (t'.get? place = some (.file text.toUTF8) ∨ (t'.get? place = some .sink ∧ t' = t)) ∧
      ∀ other, other ≠ place → t'.get? other = t.get? other := by
  obtain ⟨place, hleads, hdir, ⟨hsink, rfl⟩ | rfl⟩ := writeText_eq_ok h
  · exact ⟨place, hleads, .inr ⟨hsink, rfl⟩, fun other _ => rfl⟩
  · have hne : place ≠ [] := by
      rintro rfl
      exact hdir rfl
    refine ⟨place, hleads.keeps (keepsDirectories_put _ hdir), .inl (get?_put_self t _ hne), ?_⟩
    intro other hother
    exact get?_put_of_ne t _ hother

theorem content?_eq_of_get? {place : List String} (h : t'.get? place = t.get? place) :
    t'.content? place = t.content? place := by
  unfold content?
  rw [h]

end Write

section MakeDirectory
variable {t t' : FileTree} {place : List String}

/-- Directories are made where nothing was. -/
theorem makeAll_content? {names : List String} (h : t.makeAll place names = .ok t')
    (other : List String) : t'.content? other = t.content? other := by
  induction names generalizing t place with
  | nil =>
    cases h
    rfl
  | cons name more ih =>
    unfold makeAll at h
    split at h
    · exact ih h
    · cases h
    · next hnone =>
      rw [ih h]
      by_cases hother : other = place ++ [name]
      · rw [content?, content?, hother, hnone, get?_put_self _ _ (by simp)]
      · exact content?_eq_of_get? (get?_put_of_ne t _ hother)

theorem makeDirectory_content? {path : String} (h : t.makeDirectory path = .ok t')
    (other : List String) : t'.content? other = t.content? other :=
  makeAll_content? h other

end MakeDirectory

end FileTree

namespace Path

theorem pieces_ne_nil (cs : List Char) : pieces cs ≠ [] := by
  cases cs with
  | nil => nofun
  | cons c more =>
    rw [pieces]
    split
    · nofun
    · split <;> nofun

/-- A path that has no names is empty or absolute. -/
theorem names_ne_nil {path : String} (h : path ≠ "") (ha : isAbsolute path = false) :
    names path ≠ [] := by
  unfold names isAbsolute at *
  cases hcs : path.toList with
  | nil => exact absurd (String.toList_eq_nil_iff.mp hcs) h
  | cons c more =>
    have hc : c ≠ '/' := by
      rintro rfl
      simp [hcs] at ha
    rw [pieces, if_neg hc]
    cases hmore : pieces more with
    | nil => exact absurd hmore (pieces_ne_nil more)
    | cons piece rest =>
      simp

/-- A last name that is no dots is what the path is known by. -/
theorem fileName_eq {path name : String} (h : (names path).getLast? = some name)
    (hdot : name ≠ ".") (hdots : name ≠ "..") : fileName path = name := by
  obtain ⟨before, hnames⟩ := List.getLast?_eq_some_iff.mp h
  have hsteps : steps path = before.filter (· ≠ ".") ++ [name] := by
    rw [steps, hnames, List.filter_append]
    simp [hdot]
  have hlast : (steps path).getLast? = some name := by
    rw [hsteps, List.getLast?_append]
    rfl
  rw [fileName, fileName?, hlast]
  simp [Option.filter, hdots]

end Path

namespace FileTree

/-- A path that a text was read from ends in a name that stands for no directory. -/
theorem readText_name {t : FileTree} (ht : t.WellFormed) {path text : String}
    (h : t.readText path = .ok text) :
    ∃ name, (Path.names path).getLast? = some name ∧ Path.fileName path = name := by
  obtain ⟨e, hfind, hread⟩ := except_bind_eq_ok.mp h
  obtain ⟨place, hfollow, hentry⟩ := except_bind_eq_ok.mp hfind
  obtain ⟨hpath, -, hwalk⟩ := follow_eq_ok.mp hfollow
  have hdir : t.get? place ≠ some .directory := by
    intro hplace
    rw [hplace] at hentry
    cases hentry
    cases hread
  have hnames : Path.names path ≠ [] := by
    intro hnil
    cases ha : Path.isAbsolute path with
    | false => exact Path.names_ne_nil hpath ha hnil
    | true =>
      rw [hnil, start, if_pos ha] at hwalk
      cases hwalk
      exact hdir rfl
  have hlast := List.getLast?_eq_some_getLast hnames
  generalize (Path.names path).getLast hnames = name at hlast
  obtain ⟨before, hsplit⟩ := List.getLast?_eq_some_iff.mp hlast
  rw [hsplit] at hwalk
  obtain ⟨middle, -, hwalk⟩ := walk_append.mp hwalk
  obtain ⟨next, hstep, hnext⟩ := except_bind_eq_ok.mp hwalk
  cases hnext
  obtain ⟨hmiddle, ⟨-, rfl⟩ | ⟨-, rfl⟩ | ⟨hdot, hdots, -⟩⟩ := step_eq_ok hstep
  · exact absurd hmiddle hdir
  · by_cases hnil : middle = []
    · subst hnil
      exact absurd rfl hdir
    · exact absurd (ht middle _ hmiddle hnil) hdir
  · exact ⟨name, hlast, Path.fileName_eq hlast hdot hdots⟩

end FileTree

end RootedC.Command
