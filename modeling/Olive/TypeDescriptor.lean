import Olive.Ir

/-! Type descriptors: the bytes that tell the typed walks of the runtime how a value is laid out. -/

namespace Olive

/-- The struct and enum definitions a descriptor is built from. -/
structure TypeTables where
  structFields : List (String × List String)
  fieldTypes : FxHashMap (String × String) OliveType
  enumDefs : List (String × List (String × List OliveType))
  /-- `struct_has_drop` of the struct's monomorphized name. -/
  structHasDrop : String → List OliveType → Bool

def OliveType.isScalar : OliveType → Bool
  | .int | .i8 | .i16 | .i32 | .u8 | .u16 | .u32 | .u64 | .usize | .float | .f32 | .bool => true
  | _ => false

/-- Words that tell by themselves what they are. -/
def OliveType.isIdentity : OliveType → Bool
  | .str | .list _ | .dict _ _ | .set _ | .bytes => true
  | _ => false

def OliveType.isStruct : OliveType → Bool
  | .struct _ _ _ => true
  | _ => false

def isTagEncodedUnion (members : List OliveType) : Bool :=
  (members.all fun m => m.isNull || m.isStruct || m.isScalar || m.isIdentity) &&
    (members.any OliveType.isScalar ||
      decide (2 ≤ (members.filter fun m => !m.isNull).length) && members.any OliveType.isStruct)

/-- The arm of `encode_descriptor` a type takes, with what the arm goes on to encode. -/
inductive DescriptorArm where
  | leaf (tag : UInt8)
  | seq (tag : UInt8) (item : OliveType)
  | dict (key value : OliveType)
  | tuple (items : List OliveType)
  | struct (tag : UInt8) (name : String) (fields : List (String × OliveType))
  | enum (name : String) (variants : List (String × List OliveType))
  | backref (target : Nat)

def fieldsOf (tables : TypeTables) (name : String) (fields : List String) :
    List (String × OliveType) :=
  fields.map fun f => (f, (tables.fieldTypes (name, f)).getD .any)

section Arms

variable (tables : TypeTables) (visiting : FxHashMap String Nat)

mutual
def descriptorArm : OliveType → DescriptorArm
  | .ref target | .mutRef target | .ptr target => descriptorArm target
  | .float | .f32 | .floatLiteral _ => .leaf 2
  | .bool => .leaf 3
  | .str => .leaf 4
  | .null => .leaf 5
  | .bytes => .leaf 15
  | .union members =>
    if isTagEncodedUnion members then .leaf 6 else (soleArm members).getD (.leaf 6)
  | .any | .pyObject | .pyNamed _ _ => .leaf 6
  | .list item | .vector item _ => .seq 7 item
  | .set item => .seq 8 item
  | .dict key value => .dict key value
  | .tuple items => .tuple items
  | .struct name args _ =>
    match tables.structFields.lookup name, visiting name with
    | some _, some target => .backref target
    | some fields, none =>
      .struct (if tables.structHasDrop name args then 16 else 12) name (fieldsOf tables name fields)
    | none, _ => .leaf 11
  | .enum name _ =>
    match tables.enumDefs.lookup name, visiting name with
    | some _, some target => .backref target
    | some variants, none => .enum name variants
    | none, _ => .leaf 11
  | .traitObject _ _ => .leaf 17
  | .var _ => .leaf 6
  | _ => .leaf 1
/-- The arm of the only member that is not null. -/
def soleArm : List OliveType → Option DescriptorArm
  | [] => none
  | m :: ms =>
    if m.isNull then soleArm ms
    else if ms.all OliveType.isNull then some (descriptorArm m) else none
end

/-- The names a struct or enum can still be entered under. -/
def unvisited : List String :=
  (tables.structFields.map (·.1) ++ tables.enumDefs.map (·.1)).filter fun name =>
    (visiting name).isNone

/-- What an arm encodes next is smaller, or a field or payload of a name not visited before. -/
def DescriptorArm.Descends (size : Nat) : DescriptorArm → Prop
  | .leaf _ | .backref _ => True
  | .seq _ item => sizeOf item < size
  | .dict key value => sizeOf key < size ∧ sizeOf value < size
  | .tuple items => ∀ item ∈ items, sizeOf item < size
  | .struct _ name _ | .enum name _ => name ∈ unvisited tables visiting

end Arms

section Descent

variable {tables : TypeTables} {visiting : FxHashMap String Nat}

theorem DescriptorArm.Descends.weaken {arm : DescriptorArm} {size size' : Nat}
    (h : arm.Descends tables visiting size) (hle : size ≤ size') :
    arm.Descends tables visiting size' := by
  cases arm with
  | leaf tag => trivial
  | backref target => trivial
  | seq tag item => exact Nat.lt_of_lt_of_le h hle
  | dict key value => exact ⟨Nat.lt_of_lt_of_le h.1 hle, Nat.lt_of_lt_of_le h.2 hle⟩
  | tuple items => exact fun item hmem => Nat.lt_of_lt_of_le (h item hmem) hle
  | struct tag name fields => exact h
  | enum name variants => exact h

theorem key_of_lookup {α : Type} {defs : List (String × α)} {name : String} {a : α}
    (h : defs.lookup name = some a) : name ∈ defs.map (·.1) := by
  obtain ⟨before, after, rfl, -⟩ := List.lookup_eq_some_iff.mp h
  simp

theorem mem_unvisited_of_struct {name : String} {fields : List String}
    (h : tables.structFields.lookup name = some fields) (hv : visiting name = none) :
    name ∈ unvisited tables visiting :=
  List.mem_filter.mpr ⟨List.mem_append_left _ (key_of_lookup h), by rw [hv]; rfl⟩

theorem mem_unvisited_of_enum {name : String} {variants : List (String × List OliveType)}
    (h : tables.enumDefs.lookup name = some variants) (hv : visiting name = none) :
    name ∈ unvisited tables visiting :=
  List.mem_filter.mpr ⟨List.mem_append_right _ (key_of_lookup h), by rw [hv]; rfl⟩

mutual
theorem descriptorArm_descends (ty : OliveType) :
    (descriptorArm tables visiting ty).Descends tables visiting (sizeOf ty) := by
  cases ty with
  | ref target | mutRef target | ptr target =>
    rw [descriptorArm]
    exact (descriptorArm_descends target).weaken (by simp)
  | union members =>
    rw [descriptorArm]
    split
    · trivial
    · cases h : soleArm tables visiting members with
      | none => trivial
      | some arm => exact (soleArm_descends members arm h).weaken (by simp)
  | list item | set item =>
    rw [descriptorArm]
    show _ < _
    simp
  | vector item width =>
    rw [descriptorArm]
    show _ < _
    simp
    omega
  | dict key value =>
    rw [descriptorArm]
    refine ⟨?_, ?_⟩ <;> simp <;> omega
  | tuple items =>
    rw [descriptorArm]
    intro item hmem
    have hlt := List.sizeOf_lt_of_mem hmem
    simp only [OliveType.tuple.sizeOf_spec]
    omega
  | struct name args isFfi =>
    rw [descriptorArm]
    split
    next => trivial
    next hl hv => exact mem_unvisited_of_struct hl hv
    next => trivial
  | enum name args =>
    rw [descriptorArm]
    split
    next => trivial
    next hl hv => exact mem_unvisited_of_enum hl hv
    next => trivial
  | _ => simp only [descriptorArm, DescriptorArm.Descends]
theorem soleArm_descends (members : List OliveType) (arm : DescriptorArm)
    (h : soleArm tables visiting members = some arm) :
    arm.Descends tables visiting (sizeOf members) := by
  cases members with
  | nil => simp [soleArm] at h
  | cons m ms =>
    rw [soleArm] at h
    split at h
    · exact (soleArm_descends ms arm h).weaken (by simp)
    · split at h
      · obtain rfl := Option.some.inj h
        exact (descriptorArm_descends m).weaken (by simp; omega)
      · cases h
end

theorem unvisited_insert {name : String} (h : name ∈ unvisited tables visiting) (start : Nat) :
    (unvisited tables (visiting.insert name start)).length <
      (unvisited tables visiting).length := by
  have hsub : unvisited tables (visiting.insert name start) =
      (unvisited tables visiting).filter fun n => decide (n ≠ name) := by
    unfold unvisited
    rw [List.filter_filter]
    refine List.filter_congr fun n _ => ?_
    by_cases hn : n = name
    · simp [FxHashMap.insert, hn]
    · simp [FxHashMap.insert, hn]
  rw [hsub]
  exact List.length_filter_lt_length_iff_exists.mpr ⟨name, h, by simp⟩

end Descent

/-- A name with its length before it: the length is biased by 13, the name cut at 242 bytes. -/
def pushLenPrefixed (out : List UInt8) (s : String) : List UInt8 :=
  let bytes := s.toUTF8.data.toList
  out ++ (min bytes.length 242 + 13).toUInt8 :: bytes.take 242

/-- Lengths and counts wrap at a byte, as `as u8` does, and offsets at two. -/
def encodeDescriptor (tables : TypeTables) (visiting : FxHashMap String Nat) (ty : OliveType)
    (out : List UInt8) : List UInt8 :=
  match harm : descriptorArm tables visiting ty with
  | .leaf tag => out ++ [tag]
  | .seq tag item => encodeDescriptor tables visiting item (out ++ [tag])
  | .dict key value =>
    encodeDescriptor tables visiting value (encodeDescriptor tables visiting key (out ++ [9]))
  | .tuple items =>
    items.attach.foldl (fun out item => encodeDescriptor tables visiting item.1 out)
      (out ++ [10, (items.length + 1).toUInt8])
  | .struct tag name fields =>
    fields.foldl (fun out' f => encodeDescriptor tables (visiting.insert name out.length) f.2
        (pushLenPrefixed out' f.1))
      (pushLenPrefixed (out ++ [tag]) name ++ [(fields.length + 13).toUInt8])
  | .enum name variants =>
    variants.foldl (fun out' variant =>
        variant.2.foldl (fun out' payload =>
            encodeDescriptor tables (visiting.insert name out.length) payload out')
          (pushLenPrefixed out' variant.1 ++ [(variant.2.length + 13).toUInt8]))
      (pushLenPrefixed (out ++ [13]) name ++ [(variants.length + 13).toUInt8])
  | .backref target =>
    out ++ ([14, (target >>> 8).toUInt8, (target &&& 255).toUInt8] : List UInt8)
termination_by ((unvisited tables visiting).length, sizeOf ty)
decreasing_by
  all_goals
    have hdesc := @descriptorArm_descends tables visiting ty
    rw [harm] at hdesc
  · exact Prod.Lex.right _ hdesc
  · exact Prod.Lex.right _ hdesc.1
  · exact Prod.Lex.right _ hdesc.2
  · exact Prod.Lex.right _ (hdesc item.1 item.2)
  · exact Prod.Lex.left _ _ (unvisited_insert hdesc _)
  · exact Prod.Lex.left _ _ (unvisited_insert hdesc _)

/-- `type_descriptor`: one character for each byte. -/
def typeDescriptor (tables : TypeTables) (ty : OliveType) : String :=
  String.ofList ((encodeDescriptor tables .empty ty []).map fun b => Char.ofNat b.toNat)

/-- `literal_data`: the text in UTF-8, ended by a zero and filled up to a multiple of four. -/
def literalData (text : String) : List UInt8 :=
  let bytes := text.toUTF8.data.toList ++ [0]
  bytes ++ List.replicate ((4 - bytes.length % 4) % 4) 0

end Olive
