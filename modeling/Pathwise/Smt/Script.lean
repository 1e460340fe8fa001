import Pathwise.Smt.Term

/-!
# Pathwise.Smt.Script

Commands of SMT-LIB and scripts, which are lists of commands. A script's text has one command a
line.

`Script.query` is what a solver is sent. A script need not ask for anything itself: the questions
for satisfiability and for a model are added unless it has them. Names stand in the text as they
are, without quotes, so a name with a blank or a parenthesis in it can break the structure of a
command; `Pathwise.Proofs.ScriptText` says which names do not.
-/

namespace Pathwise.Smt

inductive Command where
  | setLogic (logic : String)
  | setOption (key value : String)
  | declareConst (name : String) (sort : SortExpr)
  | declareFun (name : String) (params : List SortExpr) (result : SortExpr)
  | defineFun (name : String) (params : List SortedVar) (result : SortExpr) (body : Term)
  | assert (t : Term)
  | checkSat
  | getModel
  | push (levels : Nat)
  | pop (levels : Nat)
  | comment (text : String)
  | exit
  deriving Inhabited

namespace Command

def text : Command → String
  | setLogic logic => "(set-logic " ++ logic ++ ")"
  | setOption key value => "(set-option :" ++ key ++ " " ++ value ++ ")"
  | declareConst name sort => "(declare-const " ++ name ++ " " ++ sort.text ++ ")"
  | declareFun name params result =>
    "(declare-fun " ++ name ++ " (" ++ " ".intercalate (params.map SortExpr.text) ++ ") " ++
      result.text ++ ")"
  | defineFun name params result body =>
    "(define-fun " ++ name ++ " " ++ varsText params ++ " " ++ result.text ++ " " ++ body.text ++
      ")"
  | assert t => "(assert " ++ t.text ++ ")"
  | checkSat => "(check-sat)"
  | getModel => "(get-model)"
  | push levels => "(push " ++ toString levels ++ ")"
  | pop levels => "(pop " ++ toString levels ++ ")"
  | comment text => ";; " ++ text
  | exit => "(exit)"

/-- Whether the command asks for satisfiability. -/
def isCheckSat : Command → Bool
  | checkSat => true
  | _ => false

/-- Whether the command asks for a model. -/
def isGetModel : Command → Bool
  | getModel => true
  | _ => false

end Command

abbrev Script := List Command

namespace Script

/-- The commands, one a line. -/
def text (s : Script) : String := "\n".intercalate (s.map Command.text)

/-- Whether the script asks for satisfiability. -/
def hasCheckSat (s : Script) : Bool := s.any Command.isCheckSat

/-- Whether the script asks for a model. -/
def hasGetModel (s : Script) : Bool := s.any Command.isGetModel

/-- The text that is sent to a solver: the script, followed by the questions it does
not ask itself, and a final line break. -/
def query (s : Script) : String :=
  s.text ++ (if s.hasCheckSat then "" else "\n" ++ Command.checkSat.text) ++
    (if s.hasGetModel then "" else "\n" ++ Command.getModel.text) ++ "\n"

end Script

end Pathwise.Smt
