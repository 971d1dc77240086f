import SsaCompiler.Listing.Token
import SsaCompiler.Program.Basic

/-!
Listings of programs.
-/
namespace SsaCompiler

def TypeName.listing (t : TypeName) : Listing :=
  .record "TypeName"
    [("name", .string t.name), ("len", .option (t.len.map fun n => .atom (toString n)))]

def Param.listing (p : Param) : Listing :=
  .record "Param" [("name", .string p.name), ("_type", p.type.listing)]

def Prototype.listing (p : Prototype) : Listing :=
  .record "Prototype"
    [("name", .string p.name), ("params", .list (p.params.map Param.listing)),
      ("return_type", p.result.listing)]

def Operator.listing : Operator → Listing
  | .add => .atom "Add"
  | .sub => .atom "Sub"
  | .mul => .atom "Mul"
  | .div => .atom "Div"
  | .less => .atom "Less"
  | .greater => .atom "Greater"
  | .equal => .atom "Equal"
  | .notEqual => .atom "NotEqual"
  | .custom c => .tagged "Custom" [.char c]

mutual

def Expr.listing : Expr → Listing
  | .string text => .tagged "String" [.string text]
  | .number n => .tagged "Number" [n.listing]
  | .bool b => .tagged "Bool" [.atom (toString b)]
  | .variable name => .tagged "Variable" [.string name]
  | .binary op lhs rhs =>
    .tagged "Binary"
      [.record "BinaryExpression"
        [("op", op.listing), ("lhs", lhs.listing), ("rhs", rhs.listing)]]
  | .unary op operand =>
    .tagged "Unary" [.record "UnaryExpression" [("op", .char op), ("expr", operand.listing)]]
  | .call callee args =>
    .tagged "Call"
      [.record "CallExpression" [("callee", .string callee), ("args", .list (exprListings args))]]
  | .sequence elements => .tagged "Sequence" [.list (exprListings elements)]

def exprListings : List Expr → List Listing
  | [] => []
  | e :: es => e.listing :: exprListings es

end

/-- The listing of a block of statements. -/
def blockListing (stmts : List Listing) : Listing := .record "Block" [("stmts", .list stmts)]

def loopListing (condition : Expr) (body : List Listing) (kind : Listing) : Listing :=
  .tagged "Loop"
    [.record "LoopStatement"
      [("condition", condition.listing), ("body", blockListing body), ("kind", kind)]]

mutual

def Stmt.listing : Stmt → Listing
  | .expr e => .tagged "Expression" [e.listing]
  | .ret value => .tagged "Return" [.option (value.map Expr.listing)]
  | .branch condition thenBlock rest =>
    let (elseIfs, last) := rest.listings
    .tagged "If"
      [.record "IfStatement"
        [("condition", condition.listing), ("then_block", blockListing (stmtListings thenBlock)),
          ("else_ifs", .list elseIfs), ("else_block", .option last)]]
  | .whileLoop condition body => loopListing condition (stmtListings body) (.atom "While")
  | .forIn index element sequence body =>
    loopListing sequence (stmtListings body)
      (.record "ForIn"
        [("index", .option (index.map Listing.string)), ("element", .string element)])

def stmtListings : List Stmt → List Listing
  | [] => []
  | s :: ss => s.listing :: stmtListings ss

/-- The listings of the further conditions, and of the last block if there is one. -/
def ElseChain.listings : ElseChain → List Listing × Option Listing
  | .none => ([], none)
  | .otherwise block => ([], some (blockListing (stmtListings block)))
  | .elseIf condition block rest =>
    let (elseIfs, last) := rest.listings
    (.record "ElseIf"
      [("condition", condition.listing), ("block", blockListing (stmtListings block))] :: elseIfs,
      last)

end

def Item.listing : Item → Listing
  | .function decl =>
    .tagged "Function"
      [.record "FunctionDeclaration"
        [("proto", decl.proto.listing), ("body", blockListing (stmtListings decl.body))]]
  | .foreign proto => .tagged "Extern" [proto.listing]
  | .statement stmt => .tagged "Statement" [stmt.listing]

end SsaCompiler
