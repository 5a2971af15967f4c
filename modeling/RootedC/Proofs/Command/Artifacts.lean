import Mathlib
import RootedC.Command.Memory
import RootedC.Command.Run
import RootedC.Proofs.Command.Files
import RootedC.Proofs.Provenance

/-!
What a run of the command leaves behind. The arguments name one source and, by the last `--emit-c`,
the file to write. A run that ends early, because of its arguments, the source or what is wrong with
the source, leaves all files as they are; any other run changes the one file it writes, and that one
holds the whole C text.
-/
namespace RootedC.Command

/-- A part of the command line. -/
inductive Argument where
  | source (path : String)
  | emitC (path : String)
  | memoryDebug

namespace Argument

def words : Argument → List String
  | source path => [path]
  | emitC path => ["--emit-c", path]
  | memoryDebug => ["--mm-debug"]

def source? : Argument → Option String
  | source path => some path
  | _ => none

def emitC? : Argument → Option String
  | emitC path => some path
  | _ => none

def isMemoryDebug : Argument → Bool
  | memoryDebug => true
  | _ => false

end Argument

theorem except_ok_bind {ε α β : Type} (a : α) (f : α → Except ε β) :
    (Except.ok a >>= f) = f a := rfl

namespace Options

/-- Parts that complete what is known so far to some options. There is one source, which is not a
flag, and of all paths to write to the last one counts. -/
structure Completed (source? emitC? : Option String) (debug : Bool) (o : Options)
    (parts : List Argument) : Prop where
  source : source?.toList ++ parts.filterMap Argument.source? = [o.source]
  plain : ∀ path ∈ parts.filterMap Argument.source?, isFlag path = false
  emitC : o.emitC? = (parts.filterMap Argument.emitC?).getLast?.or emitC?
  memoryDebug : o.memoryDebug = (debug || parts.any Argument.isMemoryDebug)

/-- Arguments that ask for some options. -/
def Means (o : Options) (arguments : List String) : Prop :=
  ∃ parts : List Argument, arguments = parts.flatMap Argument.words ∧
    Completed none none false o parts

section Arguments
variable {source? emitC? : Option String} {debug : Bool} {o : Options} {path : String}
  {parts : List Argument}

theorem completed_emitC : Completed source? emitC? debug o (.emitC path :: parts) ↔
    Completed source? (some path) debug o parts := by
  have hlast : (path :: parts.filterMap Argument.emitC?).getLast?.or emitC? =
      (parts.filterMap Argument.emitC?).getLast?.or (some path) := by
    rw [List.getLast?_cons]
    cases (parts.filterMap Argument.emitC?).getLast? <;> rfl
  constructor
  · rintro ⟨hs, hp, he, hm⟩
    exact ⟨hs, hp, he.trans hlast, hm⟩
  · rintro ⟨hs, hp, he, hm⟩
    exact ⟨hs, hp, he.trans hlast.symm, hm⟩

theorem completed_memoryDebug : Completed source? emitC? debug o (.memoryDebug :: parts) ↔
    Completed source? emitC? true o parts := by
  constructor
  · rintro ⟨hs, hp, he, hm⟩
    exact ⟨hs, hp, he, by simpa [Argument.isMemoryDebug] using hm⟩
  · rintro ⟨hs, hp, he, hm⟩
    exact ⟨hs, hp, he, by simpa [Argument.isMemoryDebug] using hm⟩

theorem completed_source : Completed source? emitC? debug o (.source path :: parts) ↔
    source? = none ∧ isFlag path = false ∧ Completed (some path) emitC? debug o parts := by
  constructor
  · rintro ⟨hs, hp, he, hm⟩
    obtain ⟨hpath, hmore⟩ := List.forall_mem_cons.mp hp
    cases source? with
    | none => exact ⟨rfl, hpath, hs, hmore, he, hm⟩
    | some other => simp [Argument.source?] at hs
  · rintro ⟨rfl, hpath, hs, hmore, he, hm⟩
    exact ⟨hs, List.forall_mem_cons.mpr ⟨hpath, hmore⟩, he, hm⟩

/-- An argument that is none of the two flags. -/
theorem readFrom_other (hemit : path ≠ "--emit-c") (hdebug : path ≠ "--mm-debug")
    (more : List String) :
    readFrom source? emitC? debug (path :: more) =
      if isFlag path then .error (.unknownFlag path)
      else
        match source? with
        | some _ => .error .secondSource
        | none => readFrom (some path) emitC? debug more := by
  rw [readFrom.eq_def]
  split
  · next heq => cases heq
  · next heq => exact absurd (List.cons.inj heq).1 hemit
  · next heq => exact absurd (List.cons.inj heq).1 hemit
  · next heq => exact absurd (List.cons.inj heq).1 hdebug
  · next heq =>
    cases heq
    rfl

theorem readFrom_source (h : isFlag path = false) (more : List String) :
    readFrom none emitC? debug (path :: more) = readFrom (some path) emitC? debug more := by
  rw [readFrom_other]
  · rw [h]
    rfl
  · rintro rfl
    exact absurd h (by decide)
  · rintro rfl
    exact absurd h (by decide)

theorem readFrom_eq_ok {arguments : List String}
    (h : readFrom source? emitC? debug arguments = .ok o) :
    ∃ parts : List Argument, arguments = parts.flatMap Argument.words ∧
      Completed source? emitC? debug o parts := by
  induction source?, emitC?, debug, arguments using readFrom.induct with
  | case1 emitC? debug source =>
    rw [readFrom] at h
    cases h
    exact ⟨[], rfl, rfl, nofun, rfl, by simp⟩
  | case2 | case3 =>
    rw [readFrom] at h
    cases h
  | case4 source? emitC? debug path more ih =>
    rw [readFrom] at h
    obtain ⟨parts, rfl, hparts⟩ := ih h
    exact ⟨.emitC path :: parts, rfl, completed_emitC.mpr hparts⟩
  | case5 source? emitC? debug more ih =>
    rw [readFrom] at h
    obtain ⟨parts, rfl, hparts⟩ := ih h
    exact ⟨.memoryDebug :: parts, rfl, completed_memoryDebug.mpr hparts⟩
  | case6 source? emitC? debug path more hlast hemit hdebug hflag =>
    have hne : path ≠ "--emit-c" := by
      intro hpath
      cases more with
      | nil => exact hlast hpath rfl
      | cons next rest => exact hemit next rest hpath rfl
    rw [readFrom_other hne hdebug, if_pos hflag] at h
    cases h
  | case7 emitC? debug path more hlast hemit hdebug hflag source =>
    have hne : path ≠ "--emit-c" := by
      rintro rfl
      exact hflag (by decide)
    rw [readFrom_other hne hdebug, if_neg hflag] at h
    cases h
  | case8 emitC? debug path more _ _ _ hflag ih =>
    have hplain : isFlag path = false := by simpa using hflag
    rw [readFrom_source hplain] at h
    obtain ⟨parts, rfl, hparts⟩ := ih h
    exact ⟨.source path :: parts, rfl, completed_source.mpr ⟨rfl, hplain, hparts⟩⟩

theorem readFrom_of_completed (h : Completed source? emitC? debug o parts) :
    readFrom source? emitC? debug (parts.flatMap Argument.words) = .ok o := by
  induction parts generalizing source? emitC? debug with
  | nil =>
    obtain ⟨hs, -, he, hm⟩ := h
    cases source? with
    | none => cases hs
    | some source =>
      obtain ⟨_, _, _⟩ := o
      cases hs
      cases he
      simp only [List.any_nil, Bool.or_false] at hm
      cases hm
      rfl
  | cons part more ih =>
    cases part with
    | source path =>
      obtain ⟨rfl, hplain, hmore⟩ := completed_source.mp h
      exact (readFrom_source hplain _).trans (ih hmore)
    | emitC path => exact ih (completed_emitC.mp h)
    | memoryDebug => exact ih (completed_memoryDebug.mp h)

theorem ofArguments_eq_ok_iff {arguments : List String} :
    ofArguments arguments = .ok o ↔ o.Means arguments := by
  constructor
  · exact readFrom_eq_ok
  · rintro ⟨parts, rfl, hparts⟩
    exact readFrom_of_completed hparts

end Arguments

/-- The file that the C text is written to. -/
def target (o : Options) : String := o.emitC?.getD buildSource

/-- The files after the C text is written. -/
def write (o : Options) (t : FileTree) (text : String) : Except HostError FileTree :=
  match o.emitC? with
  | some path => t.writeText path text
  | none => do (← t.makeDirectory buildDirectory).writeText buildSource text

/-- Writing the C text changes at most the file it is written to. -/
theorem write_frame {o : Options} {t t' : FileTree} {text : String}
    (h : o.write t text = .ok t') :
    ∃ place, t'.Leads o.target place ∧
      (t'.get? place = some (.file text.toUTF8) ∨
        (t'.get? place = some .sink ∧ t'.content? place = t.content? place)) ∧
      ∀ other, other ≠ place → t'.content? other = t.content? other := by
  unfold write at h
  unfold target
  cases hemit : o.emitC? with
  | some path =>
    rw [hemit] at h
    obtain ⟨place, hleads, hplace, hframe⟩ := FileTree.writeText_frame h
    refine ⟨place, hleads, hplace.imp_right fun hsink => ⟨hsink.1, by rw [hsink.2]⟩, ?_⟩
    intro other hother
    exact FileTree.content?_eq_of_get? (hframe other hother)
  | none =>
    rw [hemit] at h
    obtain ⟨t₁, hmake, hwrite⟩ := except_bind_eq_ok.mp h
    have hmade := FileTree.makeDirectory_content? hmake
    obtain ⟨place, hleads, hplace, hframe⟩ := FileTree.writeText_frame hwrite
    refine ⟨place, hleads, hplace.imp_right fun hsink => ⟨hsink.1, by rw [hsink.2, hmade]⟩, ?_⟩
    intro other hother
    rw [FileTree.content?_eq_of_get? (hframe other hother), hmade]

end Options

/-- The source that some options name was read and compiled under the last name of its path, with a
result. -/
def Compiled (t : FileTree) (o : Options) (result : Except Diagnostic String) : Prop :=
  ∃ source name, t.readText o.source = .ok source ∧
    (Path.names o.source).getLast? = some name ∧ compile source name = result

namespace Memory
variable {α β : Type}

/-- An act of the machine that leaves its files alone. -/
def KeepsFiles (act : StateM Memory α) : Prop := ∀ s, (act s).2.files = s.files

namespace KeepsFiles

theorem pure (a : α) : KeepsFiles (Pure.pure a) := fun _ => rfl

theorem bind {act : StateM Memory α} {next : α → StateM Memory β} (h : KeepsFiles act)
    (hnext : ∀ a, KeepsFiles (next a)) : KeepsFiles (act >>= next) :=
  fun s => (hnext _ _).trans (h s)

theorem print (text : String) : KeepsFiles (host.print text) := fun _ => rfl

theorem printError (text : String) : KeepsFiles (host.printError text) := fun _ => rfl

theorem failed (what : String) (e : HostError) : KeepsFiles (Command.failed host what e) :=
  (printError _).bind fun _ => pure _

theorem announce (p : Phase) : KeepsFiles (Command.announce host p) :=
  (pure _).bind fun _ => print _

/-- The C compiler touches no file. -/
theorem compileC (o : Options) : KeepsFiles (Command.compileC host o) := by
  refine bind (fun _ => rfl) fun compiler => bind (fun _ => rfl) fun runtime =>
    bind (fun _ => rfl) fun result => ?_
  cases result with
  | error e => exact failed _ e
  | ok finished =>
    refine (print _).bind fun _ => (printError _).bind fun _ => ?_
    split
    · exact (print _).bind fun _ => (pure _).bind fun _ => (print _).bind fun _ => pure _
    · exact pure _

end KeepsFiles

/-- An act that gives one value, whatever the machine is like, and leaves its files alone. -/
def Gives (act : StateM Memory α) (a : α) : Prop :=
  ∀ s, (act s).1 = a ∧ (act s).2.files = s.files

namespace Gives

theorem pure (a : α) : Gives (Pure.pure a) a := fun _ => ⟨rfl, rfl⟩

theorem after {act : StateM Memory α} {next : α → StateM Memory β} {b : β} (h : KeepsFiles act)
    (hnext : ∀ a, Gives (next a) b) : Gives (act >>= next) b :=
  fun s => ⟨(hnext _ _).1, (hnext _ _).2.trans (h s)⟩

/-- Telling of the phases does not change the outcome. -/
theorem compileTelling {finished : Phase → StateM Memory Unit}
    (hf : ∀ p, KeepsFiles (finished p)) (source file : String) :
    Gives (RootedC.compileTelling finished source file) (compile source file) := by
  unfold RootedC.compileTelling compile
  cases Token.scan source (some file) with
  | error d => exact pure _
  | ok tokens =>
    refine after (hf _) fun _ => ?_
    rw [except_ok_bind]
    cases Module.ofTokens tokens file with
    | error d => exact pure _
    | ok parsed =>
      refine after (hf _) fun _ => ?_
      rw [except_ok_bind]
      cases parsed.check with
      | error d => exact pure _
      | ok typed =>
        refine after (hf _) fun _ => ?_
        rw [except_ok_bind]
        cases typed.lower with
        | error d => exact pure _
        | ok code => exact after (hf _) fun _ => after (hf _) fun _ => pure _

end Gives

section Deliver
variable {o : Options} {s : Memory} {text : String} {t : FileTree} {e : HostError}

theorem act_bind (act : StateM Memory α) (next : α → StateM Memory β) (s : Memory) :
    (act >>= next) s = next (act s).1 (act s).2 := rfl

theorem writeText_run (path text : String) (s : Memory) :
    host.writeText path text s = match s.files.writeText path text with
      | .ok files => (.ok (), { s with files })
      | .error e => (.error e, s) := rfl

theorem makeDirectory_run (path : String) (s : Memory) :
    host.makeDirectory path s = match s.files.makeDirectory path with
      | .ok files => (.ok (), { s with files })
      | .error e => (.error e, s) := rfl

/-- A C text that cannot be written ends the run; at most the directory for it is left. -/
theorem deliver_failed (h : o.write s.files text = .error e) :
    (deliver host o text s).1 = exitFailure ∧
      ∀ place, (deliver host o text s).2.files.content? place = s.files.content? place := by
  unfold Options.write at h
  unfold deliver
  cases hemit : o.emitC? with
  | some path =>
    rw [hemit] at h
    simp only [act_bind, writeText_run, h]
    exact ⟨rfl, fun _ => rfl⟩
  | none =>
    rw [hemit] at h
    cases hmake : s.files.makeDirectory buildDirectory with
    | error e' =>
      simp only [act_bind, makeDirectory_run, hmake]
      exact ⟨rfl, fun _ => rfl⟩
    | ok t =>
      simp only [hmake, except_ok_bind] at h
      simp only [act_bind, makeDirectory_run, hmake, writeText_run, h]
      exact ⟨rfl, FileTree.makeDirectory_content? hmake⟩

/-- A C text that is written is all that the run leaves. -/
theorem deliver_written (h : o.write s.files text = .ok t) :
    (deliver host o text s).2.files = t ∧
      (o.emitC? ≠ none → (deliver host o text s).1 = exitOk) := by
  unfold Options.write at h
  unfold deliver
  cases hemit : o.emitC? with
  | some path =>
    rw [hemit] at h
    simp only [act_bind, writeText_run, h]
    exact ⟨rfl, fun _ => rfl⟩
  | none =>
    rw [hemit] at h
    obtain ⟨t₁, hmake, hwrite⟩ := except_bind_eq_ok.mp h
    simp only [act_bind, makeDirectory_run, hmake, writeText_run, hwrite]
    exact ⟨KeepsFiles.compileC o _, fun hne => absurd rfl hne⟩

end Deliver

end Memory

section Run
open Memory
variable {arguments : List String} {s : Memory} {o : Options} {source text : String}

theorem compiled_iff {t : FileTree} (ht : t.WellFormed) {result : Except Diagnostic String} :
    Compiled t o result ↔ ∃ source, t.readText o.source = .ok source ∧
      compile source (Path.fileName o.source) = result := by
  constructor
  · rintro ⟨source, name, hread, hname, hresult⟩
    obtain ⟨name', hname', hfile⟩ := FileTree.readText_name ht hread
    rw [hname, Option.some.injEq] at hname'
    exact ⟨source, hread, by rw [hfile, ← hname', hresult]⟩
  · rintro ⟨source, hread, hresult⟩
    obtain ⟨name, hname, hfile⟩ := FileTree.readText_name ht hread
    exact ⟨source, name, hread, hname, by rw [← hfile, hresult]⟩

theorem run_usage (h : ∀ o : Options, ¬ o.Means arguments) :
    (run host arguments s).1 = exitUsage ∧ (run host arguments s).2.files = s.files := by
  unfold run
  cases harguments : Options.ofArguments arguments with
  | error e => exact ⟨rfl, rfl⟩
  | ok o => exact absurd (Options.ofArguments_eq_ok_iff.mp harguments) (h o)

theorem run_unread {e : HostError} (ho : o.Means arguments)
    (h : s.files.readText o.source = .error e) :
    (run host arguments s).1 = exitFailure ∧ (run host arguments s).2.files = s.files := by
  have hread : host.readText o.source s = (.error e, s) := congrArg (·, s) h
  simp only [run, Options.ofArguments_eq_ok_iff.mpr ho, act_bind, hread]
  exact ⟨rfl, rfl⟩

/-- A run that has read the source goes on with what the compilation gives. -/
theorem run_read (ho : o.Means arguments) (h : s.files.readText o.source = .ok source) :
    ∃ s₁ : Memory, s₁.files = s.files ∧
      run host arguments s = match compile source (Path.fileName o.source) with
        | .error _ => (exitFailure, s₁)
        | .ok text => deliver host o text s₁ := by
  have hread : host.readText o.source s = (.ok source, s) := congrArg (·, s) h
  have hclock : host.startClock s = ((), s) := rfl
  obtain ⟨hresult, hfiles⟩ :=
    Gives.compileTelling KeepsFiles.announce source (Path.fileName o.source) s
  simp only [run, Options.ofArguments_eq_ok_iff.mpr ho, act_bind, hread, hclock]
  generalize compileTelling (announce host) source (Path.fileName o.source) s = r at hresult hfiles
  obtain ⟨result, s₁⟩ := r
  simp only at hresult hfiles
  subst hresult
  cases compile source (Path.fileName o.source) with
  | error d => exact ⟨(host.print _ s₁).2, hfiles, rfl⟩
  | ok text => exact ⟨(host.print _ s₁).2, hfiles, rfl⟩

theorem run_refused {d : Diagnostic} (ho : o.Means arguments)
    (h : s.files.readText o.source = .ok source)
    (hd : compile source (Path.fileName o.source) = .error d) :
    (run host arguments s).1 = exitFailure ∧ (run host arguments s).2.files = s.files := by
  obtain ⟨s₁, hfiles, hrun⟩ := run_read ho h
  rw [hd] at hrun
  rw [hrun]
  exact ⟨rfl, hfiles⟩

theorem run_unwritten {e : HostError} (ho : o.Means arguments)
    (h : s.files.readText o.source = .ok source)
    (ht : compile source (Path.fileName o.source) = .ok text)
    (hw : o.write s.files text = .error e) :
    (run host arguments s).1 = exitFailure ∧
      ∀ place, (run host arguments s).2.files.content? place = s.files.content? place := by
  obtain ⟨s₁, hfiles, hrun⟩ := run_read ho h
  rw [ht] at hrun
  rw [hrun, ← hfiles]
  exact deliver_failed (hfiles ▸ hw)

theorem run_written {t : FileTree} (ho : o.Means arguments)
    (h : s.files.readText o.source = .ok source)
    (ht : compile source (Path.fileName o.source) = .ok text)
    (hw : o.write s.files text = .ok t) :
    (run host arguments s).2.files = t ∧
      (o.emitC? ≠ none → (run host arguments s).1 = exitOk) := by
  obtain ⟨s₁, hfiles, hrun⟩ := run_read ho h
  rw [ht] at hrun
  rw [hrun]
  exact deliver_written (hfiles ▸ hw)

/-- A file that a run changes holds the C text of the source. -/
theorem run_changes {place : List String}
    (h : (run host arguments s).2.files.content? place ≠ s.files.content? place) :
    ∃ (o : Options) (source text : String), o.Means arguments ∧
      s.files.readText o.source = .ok source ∧
      compile source (Path.fileName o.source) = .ok text ∧
      (run host arguments s).2.files.Leads o.target place ∧
      (run host arguments s).2.files.content? place = some text.toUTF8 := by
  by_cases hm : ∃ o : Options, o.Means arguments
  · obtain ⟨o, ho⟩ := hm
    cases hread : s.files.readText o.source with
    | error e => exact absurd (by rw [(run_unread ho hread).2]) h
    | ok source =>
      cases hc : compile source (Path.fileName o.source) with
      | error d => exact absurd (by rw [(run_refused ho hread hc).2]) h
      | ok text =>
        refine ⟨o, source, text, ho, hread, hc, ?_⟩
        cases hw : o.write s.files text with
        | error e => exact absurd ((run_unwritten ho hread hc hw).2 place) h
        | ok t =>
          rw [(run_written ho hread hc hw).1] at h ⊢
          obtain ⟨target, hleads, htarget, hframe⟩ := Options.write_frame hw
          obtain rfl : place = target := by
            by_contra hne
            exact h (hframe place hne)
          rcases htarget with hfile | ⟨-, hsame⟩
          · refine ⟨hleads, ?_⟩
            rw [FileTree.content?, hfile]
          · exact absurd hsame h
  · exact absurd (by rw [(run_usage (not_exists.mp hm)).2]) h

end Run

/-- The command leaves no partial artifact. Only the file that it is asked to write can differ
afterwards, and if it does the arguments had a meaning, the source was read and compiled, and the
file holds the C text. With a usage error the run ends with 2; if the source cannot be read or
compiled it ends with 1, and in these cases no file is touched; it ends with 1 also if the C text
cannot be written. A C text that is written stands, whole, where the path leads to. -/
theorem run_writes_only_target {arguments : List String} {s s' : Memory} {code : UInt32}
    (hs : s.files.WellFormed) (h : (run Memory.host arguments).run s = (code, s')) :
    (∀ place, s'.files.content? place ≠ s.files.content? place →
      ∃ (o : Options) (text : String), o.Means arguments ∧ Compiled s.files o (.ok text) ∧
        s'.files.Leads o.target place ∧ s'.files.content? place = some text.toUTF8) ∧
    ((∀ o : Options, ¬ o.Means arguments) → code = 2 ∧ s'.files = s.files) ∧
    ∀ o : Options, o.Means arguments →
      (∀ e, s.files.readText o.source = .error e → code = 1 ∧ s'.files = s.files) ∧
      (∀ d, Compiled s.files o (.error d) → code = 1 ∧ s'.files = s.files) ∧
      ∀ text, Compiled s.files o (.ok text) →
        (∀ e, o.write s.files text = .error e → code = 1) ∧
        ∀ t, o.write s.files text = .ok t → (o.emitC? ≠ none → code = 0) ∧
          ∃ place, s'.files.Leads o.target place ∧
            (s'.files.content? place = some text.toUTF8 ∨ s'.files.get? place = some .sink) := by
  obtain ⟨rfl, rfl⟩ : (run Memory.host arguments s).1 = code ∧
      (run Memory.host arguments s).2 = s' := Prod.mk.inj h
  refine ⟨fun place hplace => ?_, run_usage, fun o ho => ⟨fun e => run_unread ho, ?_, ?_⟩⟩
  · obtain ⟨o, source, text, ho, hread, hc, hplace⟩ := run_changes hplace
    exact ⟨o, text, ho, (compiled_iff hs).mpr ⟨source, hread, hc⟩, hplace⟩
  · intro d hd
    obtain ⟨source, hread, hc⟩ := (compiled_iff hs).mp hd
    exact run_refused ho hread hc
  · intro text htext
    obtain ⟨source, hread, hc⟩ := (compiled_iff hs).mp htext
    refine ⟨fun e hw => (run_unwritten ho hread hc hw).1, fun t hw => ?_⟩
    obtain ⟨rfl, hcode⟩ := run_written ho hread hc hw
    obtain ⟨place, hleads, hplace, -⟩ := Options.write_frame hw
    refine ⟨hcode, place, hleads, hplace.imp (fun hfile => ?_) And.left⟩
    rw [FileTree.content?, hfile]

/-- A machine with a program in a file. -/
def Memory.withProgram : Memory where
  files := FileTree.initial.put (FileTree.home ++ ["main.aj"])
    (.file "entry \x7b 1 \x7d".toUTF8)
  settings := []
  programs := []
  output := ""
  errors := ""

/-- Of two paths to write to the last one is written to. -/
theorem run_writes_only_target_twice : Memory.withProgram.files.WellFormed ∧
    ∃ code s' text, (run Memory.host ["--emit-c", "a.c", "main.aj", "--emit-c", "b.c"]).run
        Memory.withProgram = (code, s') ∧
      compile "entry \x7b 1 \x7d" "main.aj" = .ok text ∧ code = 0 ∧
      ∃ place, s'.files.Leads "b.c" place ∧
        (s'.files.content? place = some text.toUTF8 ∨ s'.files.get? place = some .sink) := by
  have hwell := FileTree.wellFormed_of_isWellFormed
    (show Memory.withProgram.files.isWellFormed = true by decide +kernel)
  obtain ⟨ts, ast, tm, m, hphases⟩ :
      ∃ ts ast tm m, Phases "entry \x7b 1 \x7d" "main.aj" ts ast tm m :=
    ⟨_, _, _, _, by cbv, by cbv, by rfl, by rfl⟩
  have htext := compile_eq_ok_iff.mpr ⟨_, _, _, _, hphases, rfl⟩
  generalize m.render = text at htext
  have hmeans : Options.Means ⟨"main.aj", some "b.c", false⟩
      ["--emit-c", "a.c", "main.aj", "--emit-c", "b.c"] :=
    ⟨[.emitC "a.c", .source "main.aj", .emitC "b.c"], rfl, rfl, by decide, rfl, rfl⟩
  have hcompiled : Compiled Memory.withProgram.files ⟨"main.aj", some "b.c", false⟩ (.ok text) :=
    ⟨_, "main.aj", by decide +kernel, by decide +kernel, htext⟩
  have hwrite : Options.write ⟨"main.aj", some "b.c", false⟩ Memory.withProgram.files text =
      .ok (Memory.withProgram.files.put (FileTree.home ++ ["b.c"]) (.file text.toUTF8)) := by
    have hslash : Path.endsInSlash "b.c" = false := by decide +kernel
    have hfollow : Memory.withProgram.files.follow "b.c" (Path.names "b.c") =
        .ok (FileTree.home ++ ["b.c"]) := by
      decide +kernel
    have hnone : Memory.withProgram.files.get? (FileTree.home ++ ["b.c"]) = none :=
      Option.isNone_iff_eq_none.mp (by decide +kernel)
    simp only [Options.write, FileTree.writeText, hslash, hfollow, hnone, except_ok_bind]
    rfl
  obtain ⟨-, -, hmeant⟩ := run_writes_only_target hwell rfl
  obtain ⟨hcode, hplace⟩ := ((hmeant _ hmeans).2.2 text hcompiled).2 _ hwrite
  exact ⟨hwell, _, _, text, rfl, htext, hcode (Option.some_ne_none _), hplace⟩

end RootedC.Command
