import Olive.DescriptorWalks

/-! Where a descriptor puts what it says of each field, element and payload of a type, and what a walk
should then read. -/

namespace Olive

open Walked

/-- The bytes as `literal_data` writes them: each a character of its own, in UTF-8. -/
def emitted (out : List UInt8) : List UInt8 :=
  out.flatMap fun b => String.utf8EncodeChar (Char.ofNat b.toNat)

/-- The place in the data of what comes after `out`. -/
def posAfter (out : List UInt8) : Nat := (emitted out).length

theorem typeDescriptor_bytes (tables : TypeTables) (ty : OliveType) :
    (typeDescriptor tables ty).toUTF8.data.toList =
      emitted (encodeDescriptor tables .empty ty []) := by
  simp [typeDescriptor, emitted, String.toUTF8, List.utf8Encode, List.flatMap_map]

theorem emitted_append (out rest : List UInt8) :
    emitted (out ++ rest) = emitted out ++ emitted rest :=
  List.flatMap_append

section Encoding

variable {tables : TypeTables} {visiting : FxHashMap String Nat} {ty : OliveType}
  {out : List UInt8}

theorem encode_leaf {tag : UInt8} (h : descriptorArm tables visiting ty = .leaf tag) :
    encodeDescriptor tables visiting ty out = out ++ [tag] := by
  rw [encodeDescriptor]
  split
  all_goals simp_all

theorem encode_seq {tag : UInt8} {item : OliveType}
    (h : descriptorArm tables visiting ty = .seq tag item) :
    encodeDescriptor tables visiting ty out = encodeDescriptor tables visiting item (out ++ [tag]) := by
  rw [encodeDescriptor]
  split
  all_goals simp_all

theorem encode_dict {key value : OliveType}
    (h : descriptorArm tables visiting ty = .dict key value) :
    encodeDescriptor tables visiting ty out = encodeDescriptor tables visiting value
      (encodeDescriptor tables visiting key (out ++ [9])) := by
  rw [encodeDescriptor]
  split
  all_goals simp_all

theorem encode_tuple {items : List OliveType}
    (h : descriptorArm tables visiting ty = .tuple items) :
    encodeDescriptor tables visiting ty out =
      items.foldl (fun out item => encodeDescriptor tables visiting item out)
        (out ++ [10, (items.length + 1).toUInt8]) := by
  rw [encodeDescriptor]
  split
  case h_4 items' h' =>
    obtain rfl := DescriptorArm.tuple.inj (h'.symm.trans h)
    exact @List.foldl_attach _ _ items' (fun out item => encodeDescriptor tables visiting item out) _
  all_goals simp_all

/-- A field: its name and the descriptor of its type. -/
def pushField (tables : TypeTables) (visiting : FxHashMap String Nat) (out : List UInt8)
    (f : String × OliveType) : List UInt8 :=
  encodeDescriptor tables visiting f.2 (pushLenPrefixed out f.1)

/-- A name, and the count of what comes under it. -/
def pushHead (out : List UInt8) (name : String) (n : Nat) : List UInt8 :=
  pushLenPrefixed out name ++ [(n + 13).toUInt8]

def pushItem (tables : TypeTables) (visiting : FxHashMap String Nat) (out : List UInt8)
    (item : OliveType) : List UInt8 :=
  encodeDescriptor tables visiting item out

def pushVariant (tables : TypeTables) (visiting : FxHashMap String Nat) (out : List UInt8)
    (variant : String × List OliveType) : List UInt8 :=
  variant.2.foldl (pushItem tables visiting) (pushHead out variant.1 variant.2.length)

theorem encode_struct {tag : UInt8} {name : String} {fields : List (String × OliveType)}
    (h : descriptorArm tables visiting ty = .struct tag name fields) :
    encodeDescriptor tables visiting ty out =
      fields.foldl (pushField tables (visiting.insert name out.length))
        (pushHead (out ++ [tag]) name fields.length) := by
  rw [encodeDescriptor]
  split
  case h_5 tag' name' fields' h' =>
    obtain ⟨rfl, rfl, rfl⟩ := DescriptorArm.struct.inj (h'.symm.trans h)
    rfl
  all_goals simp_all

theorem encode_enum {name : String} {variants : List (String × List OliveType)}
    (h : descriptorArm tables visiting ty = .enum name variants) :
    encodeDescriptor tables visiting ty out =
      variants.foldl (pushVariant tables (visiting.insert name out.length))
        (pushHead (out ++ [13]) name variants.length) := by
  rw [encodeDescriptor]
  split
  case h_6 name' variants' h' =>
    obtain ⟨rfl, rfl⟩ := DescriptorArm.enum.inj (h'.symm.trans h)
    rfl
  all_goals simp_all

theorem encode_backref {target : Nat} (h : descriptorArm tables visiting ty = .backref target) :
    encodeDescriptor tables visiting ty out =
      out ++ ([14, (target >>> 8).toUInt8, (target &&& 255).toUInt8] : List UInt8) := by
  rw [encodeDescriptor]
  split
  all_goals simp_all

end Encoding

section Induction

variable {tables : TypeTables}

/-- What holds of a type when it holds of everything its descriptor goes on to encode holds of all. -/
theorem descriptor_induction {motive : FxHashMap String Nat → OliveType → Prop}
    (step : ∀ visiting ty,
      (∀ item, sizeOf item < sizeOf ty → motive visiting item) →
      (∀ name start item, name ∈ unvisited tables visiting →
        motive (visiting.insert name start) item) → motive visiting ty)
    (visiting : FxHashMap String Nat) (ty : OliveType) : motive visiting ty :=
  step visiting ty (fun item _ => descriptor_induction step visiting item)
    fun name start item _ => descriptor_induction step (visiting.insert name start) item
termination_by ((unvisited tables visiting).length, sizeOf ty)
decreasing_by
  · exact Prod.Lex.right _ (by assumption)
  · exact Prod.Lex.left _ _ (unvisited_insert (by assumption) _)

theorem foldl_extends {τ : Type} {push : List UInt8 → τ → List UInt8} {ts : List τ}
    (h : ∀ t ∈ ts, ∀ out, out <+: push out t) (out : List UInt8) : out <+: ts.foldl push out := by
  induction ts generalizing out with
  | nil => exact List.prefix_rfl
  | cons t ts ih =>
    have hfirst := h t List.mem_cons_self out
    exact hfirst.trans (ih (fun t ht => h t (List.mem_cons_of_mem _ ht)) _)

theorem pushLenPrefixed_extends (out : List UInt8) (s : String) : out <+: pushLenPrefixed out s :=
  List.prefix_append _ _

theorem pushHead_extends (out : List UInt8) (name : String) (n : Nat) :
    out <+: pushHead out name n :=
  (pushLenPrefixed_extends out name).trans (List.prefix_append _ _)

/-- The byte an arm pushes first. -/
def DescriptorArm.tag : DescriptorArm → UInt8
  | .leaf tag | .seq tag _ | .struct tag _ _ => tag
  | .dict _ _ => 9
  | .tuple _ => 10
  | .enum _ _ => 13
  | .backref _ => 14

/-- A descriptor goes after what was there, and has its tag first. -/
theorem encode_tag (visiting : FxHashMap String Nat) (ty : OliveType) : ∀ out,
    out ++ [(descriptorArm tables visiting ty).tag] <+: encodeDescriptor tables visiting ty out := by
  refine @descriptor_induction tables (fun visiting ty => ∀ out,
    out ++ [(descriptorArm tables visiting ty).tag] <+: encodeDescriptor tables visiting ty out)
    ?_ visiting ty
  intro visiting ty ihItem ihName out
  have hdesc := @descriptorArm_descends tables visiting ty
  have hgrows : ∀ {visiting' : FxHashMap String Nat} {item : OliveType},
      (∀ out, out ++ [(descriptorArm tables visiting' item).tag] <+:
        encodeDescriptor tables visiting' item out) →
      ∀ out, out <+: encodeDescriptor tables visiting' item out :=
    fun h out => (List.prefix_append _ _).trans (h out)
  cases harm : descriptorArm tables visiting ty with
  | leaf tag =>
    rw [encode_leaf harm]
    exact List.prefix_rfl
  | seq tag item =>
    rw [harm] at hdesc
    rw [encode_seq harm]
    exact hgrows (ihItem item hdesc) _
  | dict key value =>
    rw [harm] at hdesc
    rw [encode_dict harm]
    exact (hgrows (ihItem key hdesc.1) _).trans (hgrows (ihItem value hdesc.2) _)
  | tuple items =>
    rw [harm] at hdesc
    rw [encode_tuple harm]
    have hitems := foldl_extends (fun item hmem => hgrows (ihItem item (hdesc item hmem)))
      (out ++ [10, (items.length + 1).toUInt8])
    have hhead : out ++ [10] <+: out ++ [10, (items.length + 1).toUInt8] :=
      ⟨[(items.length + 1).toUInt8], by simp⟩
    exact hhead.trans hitems
  | struct tag name fields =>
    rw [harm] at hdesc
    rw [encode_struct harm]
    refine (pushHead_extends (out ++ [tag]) name fields.length).trans (foldl_extends ?_ _)
    intro f _ out'
    exact (pushLenPrefixed_extends out' f.1).trans (hgrows (ihName name _ f.2 hdesc) _)
  | «enum» name variants =>
    rw [harm] at hdesc
    rw [encode_enum harm]
    refine (pushHead_extends (out ++ [13]) name variants.length).trans (foldl_extends ?_ _)
    intro variant _ out'
    refine (pushHead_extends out' variant.1 variant.2.length).trans (foldl_extends ?_ _)
    exact fun item _ => hgrows (ihName name _ item hdesc)
  | backref target =>
    rw [encode_backref harm]
    exact ⟨(target >>> 8).toUInt8 :: [(target &&& 255).toUInt8], by simp [DescriptorArm.tag]⟩

theorem encode_extends (visiting : FxHashMap String Nat) (ty : OliveType) (out : List UInt8) :
    out <+: encodeDescriptor tables visiting ty out :=
  (List.prefix_append _ _).trans (encode_tag visiting ty out)

theorem encode_length (visiting : FxHashMap String Nat) (ty : OliveType) (out : List UInt8) :
    out.length < (encodeDescriptor tables visiting ty out).length := by
  have hle := (@encode_tag tables visiting ty out).length_le
  rw [List.length_append, List.length_singleton] at hle
  exact hle

theorem pushField_extends (visiting : FxHashMap String Nat) (out : List UInt8)
    (f : String × OliveType) : out <+: pushField tables visiting out f :=
  (pushLenPrefixed_extends out f.1).trans (encode_extends visiting f.2 _)

theorem pushVariant_extends (visiting : FxHashMap String Nat) (out : List UInt8)
    (variant : String × List OliveType) : out <+: pushVariant tables visiting out variant :=
  (pushHead_extends out variant.1 variant.2.length).trans
    (foldl_extends (fun item _ => encode_extends visiting item) _)

end Induction

/-- The names being visited from before a place. -/
def FxHashMap.before (visiting : FxHashMap String Nat) (target : Nat) : FxHashMap String Nat :=
  fun name => (visiting name).filter fun start => decide (start < target)

section Expected

variable {α : Type} (walker : Walker) (tables : TypeTables) (zero : α)

/-- The types of `ts` one after another, each after what the one before it pushed. -/
def forTypes {τ : Type} (body : Nat → τ → List UInt8 → Walked α)
    (push : List UInt8 → τ → List UInt8) : List τ → Nat → List UInt8 → Walked α
  | [], _, out => goesTo (some (posAfter out))
  | t :: ts, i, out => (body i t out).andThen fun _ => forTypes body push ts (i + 1) (push out t)

/-- How many bytes a name has. -/
def nameLength (s : String) : Nat := s.toUTF8.data.toList.length

section Parts

variable (visit : Value α → FxHashMap String Nat → OliveType → List UInt8 → Walked α)
  (visiting : FxHashMap String Nat)

def expectedItem (v : Value α) (i : Nat) (item : OliveType) (out : List UInt8) : Walked α :=
  visitPart (walker.part? zero v i) (fun part => visit part visiting item out)
    (some (posAfter (pushItem tables visiting out item)))

def expectedField (shared : Bool) (v : Value α) (i : Nat) (f : String × OliveType)
    (out : List UInt8) : Walked α :=
  note (.name (posAfter out) (nameLength f.1))
    (visitPart (walker.field? zero shared v i)
      (fun part => visit part visiting f.2 (pushLenPrefixed out f.1))
      (some (posAfter (pushField tables visiting out f))))

def expectedPayload (v : Value α) (i j : Nat) (item : OliveType) (out : List UInt8) : Walked α :=
  visitPart (walker.payload? zero v i j) (fun part => visit part visiting item out)
    (some (posAfter (pushItem tables visiting out item)))

def expectedVariant (v : Value α) (i : Nat) (variant : String × List OliveType)
    (out : List UInt8) : Walked α :=
  note (.name (posAfter out) (nameLength variant.1))
    (note (.count (posAfter (pushLenPrefixed out variant.1)) variant.2.length)
      (forTypes (expectedPayload walker tables zero visit visiting v i) (pushItem tables visiting)
        variant.2 0 (pushHead out variant.1 variant.2.length)))

end Parts

/-- What a walk should read of a value of type `ty` whose descriptor goes after `out`: the tag of the
type's constructor, its name and arity, and what `visit` says of each part it visits. -/
def expectedNode (visit : Value α → FxHashMap String Nat → OliveType → List UInt8 → Walked α)
    (v : Value α) (visiting : FxHashMap String Nat) (ty : OliveType) (out : List UInt8) : Walked α :=
  match descriptorArm tables visiting ty with
  | .leaf tag => note (.enter v (posAfter out) tag) (goesTo (some 0))
  | .seq tag item =>
    note (.enter v (posAfter out) tag)
      (if walker.entersItem (descriptorArm tables visiting item).tag then
        visitAll ((v.items?.getD []).map fun x => visit x visiting item (out ++ [tag]))
      else goesTo (some 0))
  | .dict key value =>
    note (.enter v (posAfter out) 9)
      (visitAll (v.pairs.map fun e =>
        (if walker.visitsKeys then visit e.1 visiting key (out ++ [9]) else goesTo (some 0)).andThen
          fun _ =>
            if walker.entersEntry (descriptorArm tables visiting value).tag then
              visit e.2 visiting value (encodeDescriptor tables visiting key (out ++ [9]))
            else goesTo (some 0)))
  | .tuple items =>
    note (.enter v (posAfter out) 10)
      (note (.count (posAfter (out ++ [10])) items.length)
        (forTypes (expectedItem walker tables zero visit visiting v) (pushItem tables visiting) items 0
          (out ++ [10, (items.length + 1).toUInt8])))
  | .struct tag name fields =>
    note (.enter v (posAfter out) tag)
      (note (.name (posAfter (out ++ [tag])) (nameLength name))
        (note (.count (posAfter (pushLenPrefixed (out ++ [tag]) name)) fields.length)
          (forTypes
            (expectedField walker tables zero visit (visiting.insert name out.length)
              (decide (tag = 16)) v)
            (pushField tables (visiting.insert name out.length)) fields 0
            (pushHead (out ++ [tag]) name fields.length))))
  | .enum name variants =>
    note (.enter v (posAfter out) 13)
      (note (.name (posAfter (out ++ [13])) (nameLength name))
        (note (.count (posAfter (pushLenPrefixed (out ++ [13]) name)) variants.length)
          (forTypes (expectedVariant walker tables zero visit (visiting.insert name out.length) v)
            (pushVariant tables (visiting.insert name out.length)) variants 0
            (pushHead (out ++ [13]) name variants.length))))
  | .backref target => visit v (visiting.before target) ty (out.take target)

/-- What a walk should read, and where it should end: past the descriptor of the type. -/
def expected : Nat → Value α → FxHashMap String Nat → OliveType → List UInt8 → Walked α
  | 0, _, _, _, _ => goesTo none
  | depth + 1, v, visiting, ty, out =>
    (if walker.skipsMet && v.isMet then goesTo (some 0)
      else expectedNode walker tables zero (expected depth) v visiting ty out).andThen fun _ =>
        goesTo (some (posAfter (encodeDescriptor tables visiting ty out)))

end Expected

/-- The descriptor of `ty` is read the way it was written: no byte of it is zero, `skip` passes over
exactly all of it, and each walk, on any value, reads the constructor, name and arity of every type it
comes to at that type's own descriptor and ends past the whole. -/
structure Consistent (tables : TypeTables) (ty : OliveType) : Prop where
  nonzero : ∀ b ∈ (typeDescriptor tables ty).toUTF8.data.toList, b ≠ 0
  skips : skip (literalData (typeDescriptor tables ty)) 0 =
    some (typeDescriptor tables ty).toUTF8.data.toList.length
  walks : ∀ {α : Type} (zero : α), ∀ walker ∈ walkers, ∀ depth v,
    walk walker (literalData (typeDescriptor tables ty)) zero depth v 0 =
      expected walker tables zero depth v .empty ty []
  ends : ∀ {α : Type} (zero : α), ∀ walker ∈ walkers, ∀ v, ∃ least, ∀ depth, least ≤ depth →
    (walk walker (literalData (typeDescriptor tables ty)) zero depth v 0).ends =
      some (typeDescriptor tables ty).toUTF8.data.toList.length

/-- The name goes into a descriptor and comes out again: short, in ASCII, without a NUL. -/
structure FitsName (s : String) : Prop where
  short : nameLength s ≤ 114
  ascii : ∀ b ∈ s.toUTF8.data.toList, b.toNat < 128
  nonzero : ∀ b ∈ s.toUTF8.data.toList, b ≠ 0

/-- The arm of a type inside the descriptors of the structs and enums in `visited`. -/
def armIn (tables : TypeTables) (visited : List String) (ty : OliveType) : DescriptorArm :=
  descriptorArm tables (fun name => if name ∈ visited then some 0 else none) ty

/-- The types whose descriptors hold: no struct or enum comes back inside itself, and all names and
counts leave their bytes below 128. -/
inductive Fits (tables : TypeTables) : List String → OliveType → Prop where
  | leaf {visited ty tag} (harm : armIn tables visited ty = .leaf tag) : Fits tables visited ty
  | seq {visited ty tag item} (harm : armIn tables visited ty = .seq tag item)
      (hitem : Fits tables visited item) : Fits tables visited ty
  | dict {visited ty key value} (harm : armIn tables visited ty = .dict key value)
      (hkey : Fits tables visited key) (hvalue : Fits tables visited value) : Fits tables visited ty
  | tuple {visited ty items} (harm : armIn tables visited ty = .tuple items)
      (hcount : items.length ≤ 126) (hitems : ∀ item ∈ items, Fits tables visited item) :
      Fits tables visited ty
  | struct {visited ty tag name fields} (harm : armIn tables visited ty = .struct tag name fields)
      (hname : FitsName name) (hcount : fields.length ≤ 114)
      (hnames : ∀ f ∈ fields, FitsName f.1)
      (hfields : ∀ f ∈ fields, Fits tables (name :: visited) f.2) : Fits tables visited ty
  | enum {visited ty name variants} (harm : armIn tables visited ty = .enum name variants)
      (hname : FitsName name) (hcount : variants.length ≤ 114)
      (hheads : ∀ variant ∈ variants, FitsName variant.1 ∧ variant.2.length ≤ 114)
      (hpayloads : ∀ variant ∈ variants, ∀ item ∈ variant.2, Fits tables (name :: visited) item) :
      Fits tables visited ty

end Olive
