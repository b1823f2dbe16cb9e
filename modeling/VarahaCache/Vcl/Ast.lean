import VarahaCache.Vcl.Token

/-!
# The syntax trees of VCL

`rv-vcl/src/ast.rs`. The version of a program is kept as the number it is
declared by; its text is a matter of how numbers are written.
-/

namespace VarahaCache.Vcl

inductive BinOp
  | eq | neq | gt | lt | gte | lte | «match» | notMatch | and | or | add | sub | mul | div
deriving DecidableEq

inductive UnaryOp
  | not | negate
deriving DecidableEq

inductive SetOp
  | assign | add | subtract
deriving DecidableEq

inductive Expr
  | stringLit (s : String)
  | intLit (v : Int64)
  | realLit (v : ℚ)
  | durationLit (v : ℚ)
  | boolLit (v : Bool)
  | ident (name : String)
  | «variable» (name : String)
  | headerRef (object name : String)
  | binaryOp (left : Expr) (op : BinOp) (right : Expr)
  | unaryOp (op : UnaryOp) (operand : Expr)
  | functionCall (name : String) (args : List Expr)
  | methodCall (object : Expr) (method : String) (args : List Expr)
  | regexLit (pattern : String)
  | concat (parts : List Expr)

inductive Statement
  | set (target : String) (operator : SetOp) (value : Expr)
  | unset (target : String)
  | call (subroutine : String)
  | «return» (action : Expr)
  | «if» (condition : Expr) (body : List Statement) (elseIfs : List (Expr × List Statement))
      (elseBody : Option (List Statement))
  | synthetic (expr : Expr)
  | new (name typeName : String) (args : List Expr)
  | exprStatement (expr : Expr)
  | ban (expr : Expr)

structure ImportDecl where
  name : String

structure ProbeDecl where
  name : Option String
  properties : List (String × Expr)

structure BackendDecl where
  name : String
  properties : List (String × Expr)
  probe : Option ProbeDecl

structure AclEntry where
  negate : Bool
  addr : String
  mask : Option UInt8

structure AclDecl where
  name : String
  entries : List AclEntry

structure SubDecl where
  name : String
  body : List Statement

inductive Version
  | real (v : ℚ)
  | int (v : Int64)

structure VclProgram where
  version : Option Version
  imports : List ImportDecl
  backends : List BackendDecl
  probes : List ProbeDecl
  acls : List AclDecl
  subs : List SubDecl

end VarahaCache.Vcl
