import RootedC.Code.Module

/-! The C text of generated code. It depends on the code alone. -/
namespace RootedC.Code

/-- Texts divided by commas. -/
def commas : List String → String
  | [] => ""
  | [a] => a
  | a :: b :: more => a ++ ", " ++ commas (b :: more)

def Name.render : Name → String
  | user name => "userdef_" ++ name
  | literal scope => "userdef_" ++ scope.repr ++ "_literal"

def Var.render : Var → String
  | named scope name => "env" ++ scope.repr ++ "_var_" ++ name
  | temporary scope index => "env" ++ scope.repr ++ "_tmp" ++ index.repr

/-- A declarator: a pointer type stands right before the name. -/
def declarator (cType name : String) : String :=
  if cType.toList.getLast? = some '*' then cType ++ name else cType ++ " " ++ name

namespace Operand

mutual

def render : Operand → String
  | builtin name => "ajisai_" ++ name
  | global name => "userdef_" ++ name
  | load source => source.render
  | callBuiltin name arguments => "ajisai_" ++ name ++ "(" ++ commas (renderAll arguments) ++ ")"
  | callBuiltinWithFrame name arguments =>
    "ajisai_" ++ name ++ "(" ++ commas ("&frame" :: renderAll arguments) ++ ")"
  | callProcedure name arguments =>
    name.render ++ "(" ++ commas ("&frame" :: renderAll arguments) ++ ")"
  | integer value => value.repr
  | boolean true => "true"
  | boolean false => "false"
  | text index => "((AjisaiString *)&strlit" ++ index.repr ++ ")"
  | negate operand => "(-" ++ operand.render ++ ")"
  | not operand => "(!" ++ operand.render ++ ")"
  | binary op left right => "(" ++ left.render ++ " " ++ op.symbol ++ " " ++ right.render ++ ")"

def renderAll : List Operand → List String
  | [] => []
  | a :: more => a.render :: renderAll more

end

end Operand

/-- A line of C, indented by four spaces for every block around it. -/
def codeLine (depth : Nat) (text : String) : String :=
  String.ofList (List.replicate (4 * depth) ' ') ++ text ++ "\n"

namespace Instr

mutual

def render (depth : Nat) : Instr → String
  | rootTable size =>
    codeLine depth ("AjisaiObject *root_table[" ++ size.repr ++ "] = \x7b0\x7d;")
  | setRoot slot value =>
    codeLine depth ("root_table[" ++ slot.repr ++ "] = (AjisaiObject *)" ++ value.render ++ ";")
  | clearRoot slot => codeLine depth ("root_table[" ++ slot.repr ++ "] = NULL;")
  | frame size =>
    codeLine depth "ProcFrame frame;" ++
      if 0 < size then
        codeLine depth ("ajisai_frame_init(&frame, parent_frame, root_table, " ++ size.repr ++ ");")
      else codeLine depth "ajisai_frame_init(&frame, parent_frame, NULL, 0);"
  | define cType target none => codeLine depth (declarator cType target.render ++ ";")
  | define cType target (some value) =>
    codeLine depth (declarator cType target.render ++ " = " ++ value.render ++ ";")
  | store target value => codeLine depth (target.render ++ " = " ++ value.render ++ ";")
  | ret value => codeLine depth ("return " ++ value.render ++ ";")
  | branch condition thenBody elseBody =>
    codeLine depth ("if (" ++ condition.render ++ ") \x7b") ++ renderAll (depth + 1) thenBody ++
      codeLine depth "\x7d else \x7b" ++ renderAll (depth + 1) elseBody ++ codeLine depth "\x7d"
  | eval value => codeLine depth (value.render ++ ";")

def renderAll (depth : Nat) : List Instr → String
  | [] => ""
  | i :: more => i.render depth ++ renderAll depth more

end

end Instr

/-- The head of a procedure; its first parameter is the caller's frame. -/
def Prototype.render (p : Prototype) : String :=
  declarator p.resultType (p.name.render ++ "(" ++
    commas ("ProcFrame *parent_frame" ::
      p.parameters.map fun q => declarator q.cType q.target.render) ++ ")")

def Text.render (index : Nat) (s : Text) : String :=
  "static AjisaiStaticString strlit" ++ index.repr ++
    " = \x7b \x7b AJISAI_TAG_STRING, AJISAI_FLAG_STATIC \x7d, " ++ s.length.repr ++ ", \"" ++
    s.raw ++ "\" \x7d;"

def Constant.render (c : Constant) : String :=
  "static " ++ declarator c.cType ("const userdef_" ++ c.name) ++ " = " ++ c.value.render ++ ";"

namespace Module

/-- Lines under an empty line, nothing if there are none. -/
def paragraph (lines : List String) : String :=
  if lines.isEmpty then "" else "\n" ++ String.join (lines.map (codeLine 0))

def procedureText (p : Procedure) : String :=
  "\n" ++ codeLine 0 (p.prototype.render ++ " \x7b") ++ Instr.renderAll 1 p.body ++ "\x7d\n"

def entryText (entryPoint? : Option Entry) : String :=
  "\nvoid ajisai_entry(void) \x7b\n" ++
    codeLine 1 "ajisai_mm_init();" ++
    codeLine 1 "ProcFrame root_frame;" ++
    codeLine 1 "ajisai_frame_init(&root_frame, NULL, NULL, 0);" ++
    codeLine 1 "ProcFrame *parent_frame = &root_frame;" ++
    (match entryPoint? with
      | some entry => Instr.renderAll 1 entry.body
      | none => "") ++
    codeLine 1 "ajisai_mm_deinit();" ++ "\x7d\n"

def mainText : String :=
  "\nint main(void) \x7b\n" ++ codeLine 1 "ajisai_entry();" ++ codeLine 1 "return 0;" ++ "\x7d\n"

/-- The whole C file. -/
def render (m : Module) : String :=
  "#include \"ajisai_runtime.h\"\n" ++
    paragraph (m.prototypes.map fun p => p.render ++ ";") ++
    paragraph (m.strings.mapIdx fun index s => s.render index) ++
    paragraph (m.constants.map Constant.render) ++
    String.join (m.procedures.map procedureText) ++
    entryText m.entryPoint? ++
    mainText

end Module

end RootedC.Code
