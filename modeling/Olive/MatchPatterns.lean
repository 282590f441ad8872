import Olive.Ir

/-! Patterns of match arms, and the values they accept where `lower_pattern` tests them. -/

namespace Olive

namespace MatchPatterns

inductive Lit where
  | int (w : Word)
  | float (bits : Word)
  | bool (b : Bool)
  | str (s : String)
  | none

inductive MatchPattern where
  | wildcard
  | identifier (name : String)
  | variant (name : String) (inner : List MatchPattern)
  | literal (lit : Lit)
  | tuple (items : List MatchPattern)
  | structFields (name : String) (fields : List (String × MatchPattern))
  | list (before : List MatchPattern) (rest : Option String) (after : List MatchPattern)
  | range (start stop : Lit) (inclusive : Bool)
  | or (alts : List MatchPattern)

inductive MatchValue where
  | null
  | int (w : Word)
  | float (bits : Word)
  | bool (b : Bool)
  | str (s : String)
  | list (items : List MatchValue)
  | tuple (items : List MatchValue)
  | struct (name : String) (fields : String → MatchValue)
  | enum (name variant : String) (payload : List MatchValue)
  | other (id : Nat)

/-- The declarations the builder knows, and the comparisons of floats. -/
structure Decls where
  enumDefs : String → Option (List (String × List OliveType))
  structFieldTypes : String → String → Option OliveType
  floatEq : Word → Word → Bool
  floatLe : Word → Word → Bool
  floatLt : Word → Word → Bool

def Decls.payloadTypes (decls : Decls) (enum variant : String) : Option (List OliveType) :=
  (decls.enumDefs enum).bind fun variants => variants.lookup variant

def isInt : OliveType → Bool
  | .int | .i8 | .i16 | .i32 | .u8 | .u16 | .u32 | .u64 | .usize => true
  | _ => false

def isScalar (ty : OliveType) : Bool :=
  isInt ty || match ty with
    | .float | .f32 | .bool => true
    | _ => false

def isIdentity : OliveType → Bool
  | .str | .list _ | .dict _ _ | .set _ | .bytes => true
  | _ => false

def isStruct : OliveType → Bool
  | .struct _ _ _ => true
  | _ => false

/-- Types whose values no pattern takes apart. -/
def isOpaque : OliveType → Bool
  | .bytes | .traitObject _ _ | .fn _ _ _ | .dict _ _ | .set _ | .ref _ | .mutRef _ | .ptr _
  | .vector _ _ | .future _ | .pyObject | .pyNamed _ _ => true
  | _ => false

def isAnyType : OliveType → Bool
  | .any => true
  | _ => false

/-- `is_tag_encoded_union`. -/
def isTagEncodedUnion : OliveType → Bool
  | .union members =>
    members.all (fun m => m.isNull || isStruct m || isScalar m || isIdentity m) &&
      (members.any isScalar ||
        (2 ≤ (members.filter fun m => !m.isNull).length && members.any isStruct))
  | _ => false

/-- The values of a type. Of generic code, any value may stand for a parameter. -/
inductive HasType (decls : Decls) : OliveType → MatchValue → Prop
  | null : HasType decls .null .null
  | int {ty : OliveType} (hty : isInt ty = true) (w : Word) : HasType decls ty (.int w)
  | float (bits : Word) : HasType decls .float (.float bits)
  | f32 (bits : Word) : HasType decls .f32 (.float bits)
  | bool (b : Bool) : HasType decls .bool (.bool b)
  | str (s : String) : HasType decls .str (.str s)
  | list {item : OliveType} {items : List MatchValue} (h : ∀ v ∈ items, HasType decls item v) :
      HasType decls (.list item) (.list items)
  | tuple {tys : List OliveType} {items : List MatchValue} (hlen : items.length = tys.length)
      (h : ∀ p ∈ tys.zip items, HasType decls p.1 p.2) : HasType decls (.tuple tys) (.tuple items)
  | struct {name : String} {args : List OliveType} {isFfi : Bool} {fields : String → MatchValue}
      (h : ∀ field ty, decls.structFieldTypes name field = some ty → HasType decls ty (fields field)) :
      HasType decls (.struct name args isFfi) (.struct name fields)
  | enum {name variant : String} {args tys : List OliveType} {payload : List MatchValue}
      (hvariant : decls.payloadTypes name variant = some tys) (hlen : payload.length = tys.length)
      (h : ∀ p ∈ tys.zip payload, HasType decls p.1 p.2) :
      HasType decls (.enum name args) (.enum name variant payload)
  | union {members : List OliveType} {member : OliveType} {v : MatchValue} (hmem : member ∈ members)
      (h : HasType decls member v) : HasType decls (.union members) v
  | any (v : MatchValue) : HasType decls .any v
  | param (name : String) (v : MatchValue) : HasType decls (.param name) v
  | other {ty : OliveType} (hty : isOpaque ty = true) (id : Nat) : HasType decls ty (.other id)

def MatchValue.isNull : MatchValue → Bool
  | .null => true
  | _ => false

/-- Whether the bare word is zero. -/
def MatchValue.isZero : MatchValue → Bool
  | .null => true
  | .int w | .float w => w = 0
  | .bool b => !b
  | _ => false

section Accepts

variable (decls : Decls)

/-- The test of a `None` pattern. -/
def acceptsNull (ty : OliveType) (v : MatchValue) : Bool :=
  match ty with
  | .any => v.isNull
  | .null => true
  | .union members =>
    if members.any isAnyType || isTagEncodedUnion ty then v.isNull else v.isZero
  | _ => false

def acceptsLit (ty : OliveType) : Lit → MatchValue → Bool
  | .none, v => acceptsNull ty v
  | .int a, .int b => a = b
  | .float a, .float b => decls.floatEq b a
  | .bool a, .bool b => a = b
  | .str a, .str b => a = b
  | _, _ => false

def isU64 : OliveType → Bool
  | .u64 => true
  | _ => false

def acceptsRange (ty : OliveType) (start stop : Lit) (inclusive : Bool) : MatchValue → Bool
  | .int w =>
    match start, stop with
    | .int lo, .int hi =>
      if isU64 ty then lo.ule w && (if inclusive then w.ule hi else w.ult hi)
      else lo.sle w && (if inclusive then w.sle hi else w.slt hi)
    | _, _ => false
  | .float x =>
    match start, stop with
    | .float lo, .float hi =>
      decls.floatLe lo x && (if inclusive then decls.floatLe x hi else decls.floatLt x hi)
    | _, _ => false
  | _ => false

def enumName? : OliveType → Option String
  | .enum name _ => some name
  | _ => none

/-- The enum that a variant pattern means: of a union, the first member that has the variant. -/
def resolveVariant (ty : OliveType) (variant : String) : Option String :=
  let declares := fun name => (decls.payloadTypes name variant).isSome
  match ty with
  | .enum name _ => if declares name then some name else none
  | .union members => (members.filterMap enumName?).find? declares
  | _ => none

def fieldTypes (ty : OliveType) (count : Nat) : List OliveType :=
  match ty with
  | .tuple tys => if tys.length = count then tys else List.replicate count .any
  | _ => List.replicate count .any

def elemType : OliveType → OliveType
  | .list item => item
  | _ => .any

mutual
/-- What the tests emitted for a pattern let through. -/
def accepts (ty : OliveType) : MatchPattern → MatchValue → Bool
  | .wildcard, _ | .identifier _, _ => true
  | .literal lit, v => acceptsLit decls ty lit v
  | .range start stop inclusive, v => acceptsRange decls ty start stop inclusive v
  | .variant variant inner, .enum name variant' payload =>
    if resolveVariant decls ty variant = some name ∧ variant' = variant then
      acceptsAll ((decls.payloadTypes name variant).getD []) inner payload
    else false
  | .tuple items, .tuple vs => acceptsAll (fieldTypes ty items.length) items vs
  | .structFields _ [], _ => true
  | .structFields name fields, .struct _ vs => acceptsFields name fields vs
  | .list before rest after, .list vs =>
    let needed := before.length + after.length
    (if rest.isSome then needed ≤ vs.length else vs.length = needed) &&
      acceptsAll (List.replicate before.length (elemType ty)) before vs &&
      acceptsAll (List.replicate after.length (elemType ty)) after (vs.drop (vs.length - after.length))
  | .or alts, v => acceptsAny ty alts v
  | _, _ => false
def acceptsAll : List OliveType → List MatchPattern → List MatchValue → Bool
  | ty :: tys, p :: ps, v :: vs => accepts ty p v && acceptsAll tys ps vs
  | _, [], _ => true
  | _, _, _ => false
def acceptsFields (struct : String) : List (String × MatchPattern) → (String → MatchValue) → Bool
  | [], _ => true
  | (field, p) :: fields, vs =>
    accepts ((decls.structFieldTypes struct field).getD .any) p (vs field) &&
      acceptsFields struct fields vs
def acceptsAny (ty : OliveType) : List MatchPattern → MatchValue → Bool
  | [], _ => false
  | p :: ps, v => accepts ty p v || acceptsAny ty ps v
end

end Accepts

end MatchPatterns

end Olive
