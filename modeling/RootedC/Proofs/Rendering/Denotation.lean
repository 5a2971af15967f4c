import RootedC.Proofs.Rendering.CGrammar
import RootedC.Proofs.Rendering.Operands

/-!
Generated code, read back from its C text. The text of an instruction list is cut into tokens, the
tokens are read as C statements, and the statements stand for the list it was written from, so
different lists have different texts.
-/
namespace RootedC

open C11

namespace Code

/-- The C types of values. -/
def valueTypes : List String := [Ty.i32, .bool, .str, .unit].filterMap (·.cType.toOption)

/-- A C type as the name of a type, and whether it is a pointer to that. -/
def typeParts (cType : String) : List Char × Bool :=
  if cType = "AjisaiString *" then ("AjisaiString".toList, true) else (cType.toList, false)

def rootTableWord : List Char := "root_table".toList

/-- A slot of the root table. -/
def slotTokens (slot : Nat) : List Tok :=
  [.word rootTableWord, Tok.mark ['['], .number (Nat.toDigits 10 slot), Tok.mark [']']]

def slotC (slot : Nat) : C11.Expr := .index (.word rootTableWord) (.number (Nat.toDigits 10 slot))

/-- What the frame of an activation is set up with: its root table, or none if it is empty. -/
def frameTable (size : Nat) : List Char := if 0 < size then rootTableWord else "NULL".toList

/-- The slot of the root table that an expression stands for. -/
def slot? : C11.Expr → Option Nat
  | .index (.word w) (.number n) => if w = rootTableWord then Text.natural? n else none
  | _ => none

/-- The slot set or emptied by an assignment to the root table. -/
def setSlot? (slot : Nat) : C11.Expr → Option Instr
  | .cast type x => if type = "AjisaiObject".toList then x.operand?.map (.setRoot slot) else none
  | .word w => if w = "NULL".toList then some (.clearRoot slot) else none
  | _ => none

def assigned? (target value : C11.Expr) : Option Instr :=
  match slot? target with
  | some slot => setSlot? slot value
  | none =>
    match target with
    | .word w => do
      let target ← Var.ofWord? w
      let value ← value.operand?
      return .store target value
    | _ => none

def defined? (type : List Char) (pointer : Bool) (name : List Char) (value? : Option C11.Expr) :
    Option Instr := do
  let cType ← valueTypes.find? fun c => typeParts c = (type, pointer)
  let target ← Var.ofWord? name
  match value? with
  | none => return .define cType target none
  | some x => do
    let value ← x.operand?
    return .define cType target value

def table? (type : List Char) (pointer : Bool) (name : List Char) (size : C11.Expr) :
    Option Instr :=
  match size with
  | .number n =>
    if type = "AjisaiObject".toList ∧ pointer = true ∧ name = rootTableWord then
      (Text.natural? n).map .rootTable
    else none
  | _ => none

def isFrameDeclaration : Stmt → Bool
  | .declare type false name none => type == "ProcFrame".toList && name == "frame".toList
  | _ => false

/-- The size of the frame that a call sets up. -/
def frameSize? : C11.Expr → Option Nat
  | .call (.word w) [x, .word parent, .word table, .number n] =>
    if w = "ajisai_frame_init".toList ∧ x.isFrame = true ∧ parent = "parent_frame".toList then do
      let size ← Text.natural? n
      if table = frameTable size then some size else none
    else none
  | _ => none

mutual

/-- The instruction that a statement stands for. A frame takes two statements. -/
def instr? : Stmt → Option Instr
  | .declare type pointer name value? => defined? type pointer name value?
  | .table type pointer name size => table? type pointer name size
  | .assign target value => assigned? target value
  | .eval x => x.operand?.map .eval
  | .ret x => x.operand?.map .ret
  | .branch condition thenBody elseBody => do
    let condition ← condition.operand?
    let thenBody ← instrs? thenBody
    let elseBody ← instrs? elseBody
    return .branch condition thenBody elseBody

/-- The instructions that statements stand for. -/
def instrs? : List Stmt → Option (List Instr)
  | [] => some []
  | s :: more =>
    if isFrameDeclaration s then
      match more with
      | .eval call :: more => do
        let size ← frameSize? call
        let more ← instrs? more
        return .frame size :: more
      | _ => none
    else do
      let i ← instr? s
      let more ← instrs? more
      return i :: more

end

namespace Instr

mutual

/-- All names are identifiers, all integers are written without a sign, and variables have the type
of a value. -/
def isReadable : Instr → Bool
  | rootTable _ => true
  | setRoot _ value => value.isReadable
  | clearRoot _ => true
  | frame _ => true
  | define cType target value? =>
    valueTypes.contains cType && target.isReadable && value?.all Operand.isReadable
  | store target value => target.isReadable && value.isReadable
  | ret value => value.isReadable
  | branch condition thenBody elseBody =>
    condition.isReadable && (areReadable thenBody && areReadable elseBody)
  | eval value => value.isReadable

def areReadable : List Instr → Bool
  | [] => true
  | i :: more => i.isReadable && areReadable more

end

mutual

def tokens : Instr → List Tok
  | rootTable size =>
    typeTokens "AjisaiObject".toList true ++ Tok.word rootTableWord :: Tok.mark ['['] ::
      ([.number (Nat.toDigits 10 size)] ++ [Tok.mark [']'], Tok.mark ['='], Tok.mark ['\x7b'],
        Tok.number ['0'], Tok.mark ['\x7d'], Tok.mark [';']])
  | setRoot slot value =>
    slotTokens slot ++ Tok.mark ['='] :: ((Tok.mark ['('] :: Tok.word "AjisaiObject".toList ::
      Tok.mark ['*'] :: Tok.mark [')'] :: value.tokens) ++ [Tok.mark [';']])
  | clearRoot slot =>
    slotTokens slot ++ Tok.mark ['='] :: ([.word "NULL".toList] ++ [Tok.mark [';']])
  | frame size =>
    (typeTokens "ProcFrame".toList false ++ [.word "frame".toList, Tok.mark [';']]) ++
      ((Tok.word "ajisai_frame_init".toList :: Tok.mark ['('] ::
        (listed [Operand.frameTokens, [.word "parent_frame".toList], [.word (frameTable size)],
          [.number (Nat.toDigits 10 size)]] ++ [Tok.mark [')']])) ++ [Tok.mark [';']])
  | define cType target none =>
    typeTokens (typeParts cType).1 (typeParts cType).2 ++
      [.word target.render.toList, Tok.mark [';']]
  | define cType target (some value) =>
    typeTokens (typeParts cType).1 (typeParts cType).2 ++ Tok.word target.render.toList ::
      Tok.mark ['='] :: (value.tokens ++ [Tok.mark [';']])
  | store target value =>
    [.word target.render.toList] ++ Tok.mark ['='] :: (value.tokens ++ [Tok.mark [';']])
  | ret value => Tok.word "return".toList :: (value.tokens ++ [Tok.mark [';']])
  | branch condition thenBody elseBody =>
    Tok.word "if".toList :: Tok.mark ['('] :: (condition.tokens ++ Tok.mark [')'] ::
      Tok.mark ['\x7b'] :: (tokensAll thenBody ++ Tok.mark ['\x7d'] :: Tok.word "else".toList ::
        Tok.mark ['\x7b'] :: (tokensAll elseBody ++ [Tok.mark ['\x7d']])))
  | eval value => value.tokens ++ [Tok.mark [';']]

def tokensAll : List Instr → List Tok
  | [] => []
  | i :: more => i.tokens ++ tokensAll more

end

mutual

/-- The C statements of an instruction. -/
def toC : Instr → List Stmt
  | rootTable size =>
    [.table "AjisaiObject".toList true rootTableWord (.number (Nat.toDigits 10 size))]
  | setRoot slot value => [.assign (slotC slot) (.cast "AjisaiObject".toList value.toC)]
  | clearRoot slot => [.assign (slotC slot) (.word "NULL".toList)]
  | frame size =>
    [.declare "ProcFrame".toList false "frame".toList none,
      .eval (.call (.word "ajisai_frame_init".toList) [frameArgument, .word "parent_frame".toList,
        .word (frameTable size), .number (Nat.toDigits 10 size)])]
  | define cType target value? =>
    [.declare (typeParts cType).1 (typeParts cType).2 target.render.toList
      (value?.map Operand.toC)]
  | store target value => [.assign (.word target.render.toList) value.toC]
  | ret value => [.ret value.toC]
  | branch condition thenBody elseBody =>
    [.branch condition.toC (toCAll thenBody) (toCAll elseBody)]
  | eval value => [.eval value.toC]

def toCAll : List Instr → List Stmt
  | [] => []
  | i :: more => i.toC ++ toCAll more

end

theorem startsValue_tokens (v : Operand) : v.tokens.head?.any startsValue = true := by
  cases v with
  | builtin name => exact Operand.isName_builtinWord name
  | global name => exact Operand.isName_globalWord name
  | load source => exact source.isName_render
  | callBuiltin name arguments => exact Operand.isName_builtinWord name
  | callBuiltinWithFrame name arguments => exact Operand.isName_builtinWord name
  | callProcedure name arguments => exact name.isName_render
  | boolean value => cases value <;> rfl
  | _ => rfl

theorem parses_slot (slot : Nat) : Parses (slotTokens slot) (slotC slot) := fun _ => rfl

theorem parses_object {ts : List Tok} {x : C11.Expr} (h : Parses ts x) :
    ParsesOpen (Tok.mark ['('] :: Tok.word "AjisaiObject".toList :: Tok.mark ['*'] ::
      Tok.mark [')'] :: ts) (.cast "AjisaiObject".toList x) := by
  intro stack
  refine ⟨.cast "AjisaiObject".toList :: stack, x, ?_, fun level => rfl⟩
  exact h (.cast "AjisaiObject".toList :: stack)

theorem means_frame (size : Nat) : Means (frame size).tokens (frame size).toC := by
  have htable : isName (frameTable size) = true := by
    unfold frameTable
    split <;> rfl
  have hcall := Parses.call (w := "ajisai_frame_init".toList) rfl
    (.cons Operand.parses_frame (.cons (Parses.word (w := "parent_frame".toList) rfl).open
      (.cons (Parses.word htable).open
        (.cons (Parses.open fun _ => rfl : ParsesOpen [.number (Nat.toDigits 10 size)] _) .nil))))
  exact (Means.declare false rfl rfl).append (Means.eval rfl hcall.open)

theorem typeParts_mem {cType : String} (h : valueTypes.contains cType = true) :
    typeNames.contains (typeParts cType).1 = true := by
  have hall : valueTypes.all (fun c => typeNames.contains (typeParts c).1) = true := by decide
  exact List.all_eq_true.mp hall cType (List.contains_iff_mem.mp h)

mutual

theorem means : (i : Instr) → i.isReadable = true → Means i.tokens i.toC
  | rootTable size, _ => Means.table true rfl rfl (Parses.open fun _ => rfl)
  | setRoot slot value, _ =>
    Means.assign rfl (parses_slot slot).open (parses_object value.parses)
  | clearRoot slot, _ =>
    Means.assign rfl (parses_slot slot).open (Parses.word rfl).open
  | frame size, _ => means_frame size
  | define cType target none, h => by
    rw [isReadable, Bool.and_eq_true, Bool.and_eq_true] at h
    exact Means.declare _ (typeParts_mem h.1.1) target.isName_render
  | define cType target (some value), h => by
    rw [isReadable, Bool.and_eq_true, Bool.and_eq_true] at h
    exact Means.declareWith _ (typeParts_mem h.1.1) target.isName_render value.parses.open
  | store target value, _ => by
    refine Means.assign ?_ (Parses.word target.isName_render).open value.parses.open
    exact target.isName_render
  | ret value, _ => Means.ret value.parses.open
  | branch condition thenBody elseBody, h => by
    rw [isReadable, Bool.and_eq_true, Bool.and_eq_true] at h
    exact Means.branch condition.parses.open (meansAll thenBody h.2.1) (meansAll elseBody h.2.2)
  | eval value, _ => Means.eval (startsValue_tokens value) value.parses.open

theorem meansAll : (is : List Instr) → areReadable is = true → Means (tokensAll is) (toCAll is)
  | [], _ => Means.nil
  | i :: is, h => by
    rw [areReadable, Bool.and_eq_true] at h
    exact (means i h.1).append (meansAll is h.2)

end

section Texts

variable {rest : List Char}

theorem reads_slot (slot : Nat) {ts : List Tok} {a : List Char} (h : Reads a ts rest) :
    Reads ("root_table[".toList ++ (Nat.toDigits 10 slot ++ ']' :: a)) (slotTokens slot ++ ts)
      rest := by
  have hword : Reads rootTableWord [.word rootTableWord]
      ('[' :: (Nat.toDigits 10 slot ++ ']' :: a) ++ rest) := Reads.ofWord rfl rfl
  exact hword.append (Reads.solo rfl ((Reads.digits slot rfl).append (Reads.solo rfl h)))

/-- A value up to the semicolon. -/
theorem reads_ended {v : Operand} (h : v.isReadable = true) :
    Reads (v.render.toList ++ [';']) (v.tokens ++ [Tok.mark [';']]) rest :=
  (v.reads h rfl).append (Reads.solo rfl .nil)

theorem reads_assigned {a : List Char} {ts : List Tok} (h : Reads a ts rest) :
    Reads (' ' :: (['='] ++ ' ' :: a)) (Tok.mark ['='] :: ts) rest :=
  Reads.spaced rfl (Reads.alone (by decide) (by decide) rfl (Reads.spaced rfl h))

/-- A type that is a pointer stands right before the name. -/
theorem reads_pointer {type a : List Char} (htype : isWord type = true) {ts : List Tok}
    (hnext : (a ++ rest).head?.all (fun c => !isMarkRest c) = true) (h : Reads a ts rest) :
    Reads (type ++ ' ' :: (['*'] ++ a)) (typeTokens type true ++ ts) rest := by
  have hstar := Reads.spaced (c := ' ') rfl
    (Reads.alone (p := ['*']) (by decide) (by decide) hnext h)
  exact (Reads.ofWord htype rfl).append hstar

theorem reads_plain {type a : List Char} (htype : isWord type = true) {ts : List Tok}
    (h : Reads a ts rest) : Reads (type ++ ' ' :: a) (typeTokens type false ++ ts) rest :=
  (Reads.ofWord htype rfl).append (Reads.spaced rfl h)

theorem reads_declarator {cType : String} (hc : valueTypes.contains cType = true) {target : Var}
    (ht : target.isReadable = true) {a : List Char} {ts : List Tok}
    (hstops : stops (a ++ rest) = true) (h : Reads a ts rest) :
    Reads ((declarator cType target.render).toList ++ a)
      (typeTokens (typeParts cType).1 (typeParts cType).2 ++ Tok.word target.render.toList :: ts)
      rest := by
  have hname : Reads (target.render.toList ++ a) (Tok.word target.render.toList :: ts) rest :=
    (Reads.ofWord (Var.isWord_render ht) hstops).append h
  have hmem : cType ∈ ["int32_t", "bool", "AjisaiString *", "AjisaiUnit"] :=
    List.contains_iff_mem.mp hc
  simp only [List.mem_cons, List.not_mem_nil, or_false] at hmem
  rcases hmem with rfl | rfl | rfl | rfl
  · have htext : (declarator "int32_t" target.render).toList ++ a =
        "int32_t".toList ++ ' ' :: (target.render.toList ++ a) := by simp [declarator]
    rw [htext]
    exact reads_plain rfl hname
  · have htext : (declarator "bool" target.render).toList ++ a =
        "bool".toList ++ ' ' :: (target.render.toList ++ a) := by simp [declarator]
    rw [htext]
    exact reads_plain rfl hname
  · have htext : (declarator "AjisaiString *" target.render).toList ++ a =
        "AjisaiString".toList ++ ' ' :: (['*'] ++ (target.render.toList ++ a)) := by
      simp [declarator]
    rw [htext]
    refine reads_pointer rfl ?_ hname
    rw [List.append_assoc]
    exact Operand.head_render (v := .load target) ht _
  · have htext : (declarator "AjisaiUnit" target.render).toList ++ a =
        "AjisaiUnit".toList ++ ' ' :: (target.render.toList ++ a) := by simp [declarator]
    rw [htext]
    exact reads_plain rfl hname

theorem reads_rootTable (size depth : Nat) :
    Reads ((rootTable size).render depth).toList (rootTable size).tokens rest := by
  have htext : ("AjisaiObject *root_table[" ++ size.repr ++ "] = \x7b0\x7d;").toList =
      "AjisaiObject".toList ++ ' ' :: (['*'] ++ ("root_table[".toList ++ (Nat.toDigits 10 size ++
        ']' :: ' ' :: (['='] ++ ' ' :: '\x7b' :: (['0'] ++ ['\x7d', ';']))))) := by
    simp
  rw [render, tokens]
  refine Reads.line htext ?_ depth
  have hzero : Reads ('\x7b' :: (['0'] ++ ['\x7d', ';']))
      (Tok.mark ['\x7b'] :: ([Tok.number ['0']] ++ [Tok.mark ['\x7d'], Tok.mark [';']]))
      ('\n' :: rest) :=
    Reads.solo rfl ((Reads.number (List.cons_ne_nil _ _) rfl rfl).append
      (Reads.solo rfl (Reads.solo rfl .nil)))
  exact reads_pointer rfl rfl (reads_slot size (reads_assigned hzero))

theorem reads_setRoot (slot depth : Nat) {value : Operand} (h : value.isReadable = true) :
    Reads ((setRoot slot value).render depth).toList (setRoot slot value).tokens rest := by
  have htext :
      ("root_table[" ++ slot.repr ++ "] = (AjisaiObject *)" ++ value.render ++ ";").toList =
      "root_table[".toList ++ (Nat.toDigits 10 slot ++ ']' :: ' ' :: (['='] ++ ' ' :: '(' ::
        ("AjisaiObject".toList ++ ' ' :: (['*'] ++ ')' :: (value.render.toList ++ [';']))))) := by
    simp
  rw [render, tokens]
  refine Reads.line htext ?_ depth
  have hvalue : Reads (')' :: (value.render.toList ++ [';']))
      (Tok.mark [')'] :: (value.tokens ++ [Tok.mark [';']])) ('\n' :: rest) :=
    Reads.solo rfl (reads_ended h)
  exact reads_slot slot (reads_assigned (Reads.solo rfl (reads_pointer rfl rfl hvalue)))

theorem reads_clearRoot (slot depth : Nat) :
    Reads ((clearRoot slot).render depth).toList (clearRoot slot).tokens rest := by
  have htext : ("root_table[" ++ slot.repr ++ "] = NULL;").toList =
      "root_table[".toList ++ (Nat.toDigits 10 slot ++ ']' :: ' ' :: (['='] ++ ' ' ::
        ("NULL".toList ++ [';']))) := by
    simp
  rw [render, tokens]
  refine Reads.line htext ?_ depth
  exact reads_slot slot (reads_assigned ((Reads.ofWord rfl rfl).append (Reads.solo rfl .nil)))

theorem render_frame (size depth : Nat) : (frame size).render depth =
    codeLine depth "ProcFrame frame;" ++ codeLine depth ("ajisai_frame_init(" ++
      commas ["&frame", "parent_frame", String.ofList (frameTable size), size.repr] ++ ");") := by
  have hcall : (if 0 < size then
      codeLine depth ("ajisai_frame_init(&frame, parent_frame, root_table, " ++ size.repr ++ ");")
      else codeLine depth "ajisai_frame_init(&frame, parent_frame, NULL, 0);") =
        codeLine depth ("ajisai_frame_init(" ++
          commas ["&frame", "parent_frame", String.ofList (frameTable size), size.repr] ++
            ");") := by
    by_cases h : 0 < size
    · have htext : "ajisai_frame_init(&frame, parent_frame, root_table, " ++ size.repr ++ ");" =
          "ajisai_frame_init(" ++
            commas ["&frame", "parent_frame", String.ofList (frameTable size), size.repr] ++
              ");" := by
        have htable : String.ofList (frameTable size) = "root_table" := by
          rw [frameTable, if_pos h]
          exact String.ofList_toList
        rw [htable]
        apply String.toList_inj.mp
        simp [commas]
      rw [if_pos h, htext]
    · obtain rfl : size = 0 := by omega
      rfl
  rw [render, hcall]

theorem reads_frame (size depth : Nat) :
    Reads ((frame size).render depth).toList (frame size).tokens rest := by
  have htable : isWord (frameTable size) = true := by
    unfold frameTable
    split <;> rfl
  have hframe : "ProcFrame frame;".toList =
      "ProcFrame".toList ++ ' ' :: ("frame".toList ++ [';']) := by
    simp
  have hdeclare {rest : List Char} : Reads ("ProcFrame".toList ++ ' ' :: ("frame".toList ++ [';']))
      (typeTokens "ProcFrame".toList false ++ [.word "frame".toList, Tok.mark [';']]) rest :=
    reads_plain rfl ((Reads.ofWord rfl rfl).append (Reads.solo rfl .nil))
  have harguments : List.Forall₂
      (fun s ts => ∀ {rest}, stops rest = true → Reads s.toList ts rest)
      ["&frame", "parent_frame", String.ofList (frameTable size), size.repr]
      [Operand.frameTokens, [.word "parent_frame".toList], [.word (frameTable size)],
        [.number (Nat.toDigits 10 size)]] := by
    refine .cons Operand.reads_frame (.cons (Reads.ofWord rfl) (.cons ?_ (.cons ?_ .nil)))
    · rw [String.toList_ofList]
      exact Reads.ofWord htable
    · rw [Nat.toList_repr]
      exact Reads.digits size
  have htext : ("ajisai_frame_init(" ++ commas ["&frame", "parent_frame",
      String.ofList (frameTable size), size.repr] ++ ");").toList =
        "ajisai_frame_init".toList ++ '(' :: ((commas ["&frame", "parent_frame",
          String.ofList (frameTable size), size.repr]).toList ++ [')', ';']) := by
    simp
  rw [render_frame, String.toList_append, tokens]
  refine (Reads.line hframe hdeclare depth).append (Reads.line htext ?_ depth)
  have hend : Reads [')', ';'] [Tok.mark [')'], Tok.mark [';']] ('\n' :: rest) :=
    Reads.solo rfl (Reads.solo rfl .nil)
  have hcall := (Reads.commas harguments rfl).append hend
  have hopen := Reads.solo (c := '(') rfl hcall
  have hinit := (Reads.ofWord (w := "ajisai_frame_init".toList) rfl rfl).append hopen
  simpa using hinit

end Texts

mutual

theorem reads (depth : Nat) : (i : Instr) → i.isReadable = true → ∀ {rest},
    Reads (i.render depth).toList i.tokens rest
  | rootTable size, _, _ => reads_rootTable size depth
  | setRoot slot value, h, _ => reads_setRoot slot depth h
  | clearRoot slot, _, _ => reads_clearRoot slot depth
  | frame size, _, _ => reads_frame size depth
  | define cType target none, h, rest => by
    rw [isReadable, Bool.and_eq_true, Bool.and_eq_true] at h
    have htext : (declarator cType target.render ++ ";").toList =
        (declarator cType target.render).toList ++ [';'] := by simp
    rw [render, tokens]
    refine Reads.line htext ?_ depth
    exact reads_declarator h.1.1 h.1.2 rfl (Reads.solo rfl .nil)
  | define cType target (some value), h, rest => by
    rw [isReadable, Bool.and_eq_true, Bool.and_eq_true] at h
    have htext : (declarator cType target.render ++ " = " ++ value.render ++ ";").toList =
        (declarator cType target.render).toList ++
          ' ' :: (['='] ++ ' ' :: (value.render.toList ++ [';'])) := by
      simp
    rw [render, tokens]
    refine Reads.line htext ?_ depth
    exact reads_declarator h.1.1 h.1.2 rfl (reads_assigned (reads_ended h.2))
  | store target value, h, rest => by
    rw [isReadable, Bool.and_eq_true] at h
    have htext : (target.render ++ " = " ++ value.render ++ ";").toList =
        target.render.toList ++ ' ' :: (['='] ++ ' ' :: (value.render.toList ++ [';'])) := by
      simp
    rw [render, tokens]
    refine Reads.line htext ?_ depth
    exact (Reads.ofWord (Var.isWord_render h.1) rfl).append (reads_assigned (reads_ended h.2))
  | ret value, h, rest => by
    have htext : ("return " ++ value.render ++ ";").toList =
        "return".toList ++ ' ' :: (value.render.toList ++ [';']) := by
      simp
    rw [render, tokens]
    refine Reads.line htext ?_ depth
    exact (Reads.ofWord rfl rfl).append (Reads.spaced rfl (reads_ended h))
  | branch condition thenBody elseBody, h, rest => by
    rw [isReadable, Bool.and_eq_true, Bool.and_eq_true] at h
    have hif {rest : List Char} :
        Reads (codeLine depth ("if (" ++ condition.render ++ ") \x7b")).toList
          (Tok.word "if".toList :: Tok.mark ['('] :: (condition.tokens ++ [Tok.mark [')'], Tok.mark ['\x7b']])) rest := by
      have htext : ("if (" ++ condition.render ++ ") \x7b").toList =
          "if".toList ++ ' ' :: '(' :: (condition.render.toList ++ [')', ' ', '\x7b']) := by
        simp
      refine Reads.line htext ?_ depth
      exact (Reads.ofWord rfl rfl).append (Reads.spaced rfl (Reads.solo rfl
        ((condition.reads h.1 rfl).append
          (Reads.solo rfl (Reads.spaced rfl (Reads.solo rfl .nil))))))
    have helse {rest : List Char} : Reads (codeLine depth "\x7d else \x7b").toList
        [Tok.mark ['\x7d'], .word "else".toList, Tok.mark ['\x7b']] rest := by
      have htext : "\x7d else \x7b".toList = '\x7d' :: ' ' :: ("else".toList ++ [' ', '\x7b']) := by
        simp
      refine Reads.line htext ?_ depth
      exact Reads.solo rfl (Reads.spaced rfl
        ((Reads.ofWord rfl rfl).append (Reads.spaced rfl (Reads.solo rfl .nil))))
    have hclose : Reads (codeLine depth "\x7d").toList [Tok.mark ['\x7d']] rest :=
      Reads.line (by simp) (Reads.solo (c := '\x7d') rfl .nil) depth
    have hall := hif.append ((readsAll (depth + 1) thenBody h.2.1).append
      (helse.append ((readsAll (depth + 1) elseBody h.2.2).append hclose)))
    simpa [render, tokens] using hall
  | eval value, h, rest => by
    have htext : (value.render ++ ";").toList = value.render.toList ++ [';'] := by simp
    rw [render, tokens]
    refine Reads.line htext ?_ depth
    exact reads_ended h

theorem readsAll (depth : Nat) : (is : List Instr) → areReadable is = true → ∀ {rest},
    Reads (renderAll depth is).toList (tokensAll is) rest
  | [], _, _ => Reads.nil
  | i :: is, h, rest => by
    rw [areReadable, Bool.and_eq_true] at h
    rw [renderAll, tokensAll, String.toList_append]
    exact (reads depth i h.1).append (readsAll depth is h.2)

end

theorem slot?_slotC (slot : Nat) : slot? (slotC slot) = some slot := by
  rw [slotC, slot?, if_pos rfl, Text.natural?_toDigits]

theorem assigned?_slotC (slot : Nat) (x : C11.Expr) :
    assigned? (slotC slot) x = setSlot? slot x := by
  unfold assigned?
  rw [slot?_slotC]

theorem valueTypes_find? {cType : String} (h : valueTypes.contains cType = true) :
    valueTypes.find? (fun c => typeParts c = ((typeParts cType).1, (typeParts cType).2)) =
      some cType := by
  have hall : valueTypes.all (fun cType => valueTypes.find? (fun c => typeParts c =
    ((typeParts cType).1, (typeParts cType).2)) == some cType) = true := by decide
  exact eq_of_beq (List.all_eq_true.mp hall cType (List.contains_iff_mem.mp h))

theorem isFrameDeclaration_declare {cType : String} (h : valueTypes.contains cType = true)
    (name : List Char) (value? : Option C11.Expr) :
    isFrameDeclaration (.declare (typeParts cType).1 (typeParts cType).2 name value?) = false := by
  have hall : valueTypes.all (fun c => (typeParts c).1 != "ProcFrame".toList) = true := by decide
  have hne := bne_iff_ne.mp (List.all_eq_true.mp hall cType (List.contains_iff_mem.mp h))
  generalize (typeParts cType).1 = type at hne
  generalize (typeParts cType).2 = pointer
  cases pointer with
  | true => rfl
  | false =>
    cases value? with
    | some x => rfl
    | none =>
      change (type == "ProcFrame".toList && name == "frame".toList) = false
      rw [beq_eq_false_iff_ne.mpr hne, Bool.false_and]

theorem instrs?_cons {s : Stmt} (hs : isFrameDeclaration s = false) {i : Instr}
    (hi : instr? s = some i) (rest : List Stmt) :
    instrs? ([s] ++ rest) = (instrs? rest).map (i :: ·) := by
  rw [List.singleton_append]
  conv_lhs => unfold instrs?
  rw [if_neg (by rw [hs]; exact Bool.false_ne_true), hi]
  cases instrs? rest <;> rfl

theorem frameSize?_toC (size : Nat) : frameSize? (.call (.word "ajisai_frame_init".toList)
    [frameArgument, .word "parent_frame".toList, .word (frameTable size),
      .number (Nat.toDigits 10 size)]) = some size := by
  rw [frameSize?, if_pos ⟨rfl, rfl, rfl⟩, Text.natural?_toDigits]
  exact if_pos rfl

theorem assigned?_render {target : Var} {value : Operand} (h : value.isReadable = true) :
    assigned? (.word target.render.toList) value.toC = some (.store target value) := by
  rw [assigned?]
  change (Var.ofWord? target.render.toList).bind _ = _
  rw [target.ofWord?_render, Option.bind_some, value.operand?_toC h]
  rfl

mutual

theorem instrs?_toC : (i : Instr) → i.isReadable = true → ∀ rest,
    instrs? (i.toC ++ rest) = (instrs? rest).map (i :: ·)
  | rootTable size, _, rest => by
    refine instrs?_cons rfl ?_ rest
    rw [instr?, table?, if_pos ⟨rfl, rfl, rfl⟩, Text.natural?_toDigits, Option.map_some]
  | setRoot slot value, h, rest => by
    refine instrs?_cons rfl ?_ rest
    rw [instr?, assigned?_slotC]
    change (value.toC.operand?).map (setRoot slot) = _
    rw [value.operand?_toC h, Option.map_some]
  | clearRoot slot, _, rest => by
    refine instrs?_cons rfl ?_ rest
    rw [instr?, assigned?_slotC]
    rfl
  | frame size, _, rest => by
    have hframe :
        isFrameDeclaration (.declare "ProcFrame".toList false "frame".toList none) = true := rfl
    rw [toC, List.cons_append, List.singleton_append, instrs?, if_pos hframe,
      frameSize?_toC]
    cases instrs? rest <;> rfl
  | define cType target none, h, rest => by
    rw [isReadable, Bool.and_eq_true, Bool.and_eq_true] at h
    refine instrs?_cons (isFrameDeclaration_declare h.1.1 _ _) ?_ rest
    rw [instr?, defined?, valueTypes_find? h.1.1, target.ofWord?_render]
    rfl
  | define cType target (some value), h, rest => by
    rw [isReadable, Bool.and_eq_true, Bool.and_eq_true] at h
    refine instrs?_cons (isFrameDeclaration_declare h.1.1 _ _) ?_ rest
    rw [instr?, defined?, valueTypes_find? h.1.1, target.ofWord?_render]
    change (value.toC.operand?).bind _ = _
    rw [value.operand?_toC h.2]
    rfl
  | store target value, h, rest => by
    rw [isReadable, Bool.and_eq_true] at h
    have hi : instr? (.assign (.word target.render.toList) value.toC) = some (store target value) :=
      assigned?_render h.2
    exact instrs?_cons rfl hi rest
  | ret value, h, rest => by
    refine instrs?_cons rfl ?_ rest
    rw [instr?, value.operand?_toC h, Option.map_some]
  | branch condition thenBody elseBody, h, rest => by
    rw [isReadable, Bool.and_eq_true, Bool.and_eq_true] at h
    refine instrs?_cons rfl ?_ rest
    rw [instr?, condition.operand?_toC h.1, instrs?_toCAll thenBody h.2.1,
      instrs?_toCAll elseBody h.2.2]
    rfl
  | eval value, h, rest => by
    refine instrs?_cons rfl ?_ rest
    rw [instr?, value.operand?_toC h, Option.map_some]

theorem instrs?_toCAll : (is : List Instr) → areReadable is = true →
    instrs? (toCAll is) = some is
  | [], _ => rfl
  | i :: is, h => by
    rw [areReadable, Bool.and_eq_true] at h
    rw [toCAll, instrs?_toC i h.1, instrs?_toCAll is h.2, Option.map_some]

end

end Instr

/-- The operand that a C text is read as. -/
def readOperand? (text : String) : Option Operand := do
  let ts ← lex text.toList
  match Expr.take? ts with
  | some (x, []) => x.operand?
  | _ => none

/-- The instructions that a C text is read as. -/
def readInstrs? (text : String) : Option (List Instr) := do
  let ts ← lex text.toList
  let ss ← statements? ts
  instrs? ss

theorem Operand.readOperand?_render {v : Operand} (h : v.isReadable = true) :
    readOperand? v.render = some v := by
  have htake : C11.Expr.take? v.tokens = some (v.toC, []) := by
    have hrun := takeFrom_of_run (v.parses []) []
    rw [List.append_nil] at hrun
    exact hrun
  rw [readOperand?, (v.reads h rfl).all]
  dsimp only [Option.bind_eq_bind, Option.bind_some]
  rw [htake]
  exact v.operand?_toC h

theorem Instr.readInstrs?_renderAll {is : List Instr} (h : areReadable is = true) (depth : Nat) :
    readInstrs? (renderAll depth is) = some is := by
  rw [readInstrs?, (readsAll depth is h).all, Option.bind_eq_bind, Option.bind_some,
    statements?_of_means (meansAll is h), Option.bind_eq_bind, Option.bind_some]
  exact instrs?_toCAll is h

/-- Generated text denotes the code it was written from. Texts are cut into tokens by maximal munch
and expressions are read as the grammar of C derives them; so read, the text of an operand is that
operand, and the text of an instruction list is that list, whatever its indentation. In particular
different operands and different lists have different texts. -/
theorem text_denotes_code :
    (∀ cs ts, lex cs = some ts → Munches cs ts) ∧
    (∀ ts x rest, Expr.take? ts = some (x, rest) → ∃ used, ts = used ++ rest ∧ Derives 1 used x) ∧
    (∀ v : Operand, v.isReadable = true → readOperand? v.render = some v) ∧
    (∀ is depth, Instr.areReadable is = true → readInstrs? (Instr.renderAll depth is) = some is) ∧
    (∀ v w : Operand, v.isReadable = true → w.isReadable = true → v.render = w.render → v = w) ∧
    (∀ is js depth depth', Instr.areReadable is = true → Instr.areReadable js = true →
      Instr.renderAll depth is = Instr.renderAll depth' js → is = js) := by
  refine ⟨fun _ _ => munches_of_lex, fun _ _ _ => derives_of_take?,
    fun _ => Operand.readOperand?_render, fun _ depth h => Instr.readInstrs?_renderAll h depth,
    fun v w hv hw htext => ?_, fun is js depth depth' his hjs htext => ?_⟩
  · have hread := Operand.readOperand?_render hv
    rw [htext, Operand.readOperand?_render hw] at hread
    exact (Option.some.inj hread).symm
  · have hread := Instr.readInstrs?_renderAll his depth
    rw [htext, Instr.readInstrs?_renderAll hjs depth'] at hread
    exact (Option.some.inj hread).symm

/-- Code with nested branches, a frame and roots, signs that stand side by side, calls with and
without a frame, and a call without arguments. -/
def nestedCode : List Instr :=
  [.rootTable 1, .frame 1,
    .define "AjisaiString *" (.temporary 1 0)
      (some (.callBuiltinWithFrame "str_concat" [.text 0, .load (.named 2 "x")])),
    .setRoot 0 (.load (.temporary 1 0)),
    .branch (.not (.binary .lt (.negate (.negate (.integer 1))) (.callBuiltin "now" [])))
      [.clearRoot 0]
      [.define "int32_t" (.named 3 "env0_tmp0") none,
        .branch (.boolean true) [] [.store (.named 3 "env0_tmp0") (.global "limit")],
        .eval (.callProcedure (.literal 3) [.binary .sub (.integer 0) (.negate (.integer 7))])],
    .ret (.callProcedure (.user "f") [])]

theorem text_denotes_code_nested :
    Instr.areReadable nestedCode = true ∧
      readInstrs? (Instr.renderAll 1 nestedCode) = some nestedCode ∧
      (Operand.negate (.negate (.integer 1))).isReadable = true ∧
      readOperand? (Operand.negate (.negate (.integer 1))).render =
        some (.negate (.negate (.integer 1))) := by
  have hcode : Instr.areReadable nestedCode = true := by decide +kernel
  have hvalue : (Operand.negate (.negate (.integer 1))).isReadable = true := by decide
  exact ⟨hcode, text_denotes_code.2.2.2.1 nestedCode 1 hcode, hvalue,
    text_denotes_code.2.2.1 _ hvalue⟩

end Code

end RootedC
