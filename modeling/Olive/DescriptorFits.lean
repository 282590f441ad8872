import Olive.DescriptorReads

/-! A type that fits: its descriptor is passed over whole, and every walk reads of it what it should. -/

namespace Olive

open Walked

variable {tables : TypeTables} {visiting : FxHashMap String Nat} {visited : List String}
  {ty : OliveType} {desc out : List UInt8}

/-- The descriptor of `ty`, after `out` in `desc`: it is skipped whole, and read as it should be. -/
structure ReadsBack (tables : TypeTables) (desc : List UInt8) (visiting : FxHashMap String Nat)
    (ty : OliveType) (out : List UInt8) : Prop where
  skips : ∀ depth, (encodeDescriptor tables visiting ty out).length ≤ out.length + depth →
    skipDepth desc depth out.length = some (encodeDescriptor tables visiting ty out).length
  walks : ∀ {α : Type} (walker : Walker) (zero : α) depth v,
    walk walker desc zero depth v out.length = expected walker tables zero depth v visiting ty out
  ends : ∀ {α : Type} (walker : Walker) (zero : α) depth v,
    (encodeDescriptor tables visiting ty out).length ≤ out.length + depth →
    (expected walker tables zero depth v visiting ty out).ends =
      some (encodeDescriptor tables visiting ty out).length

/-- `ReadsBack` wherever the descriptor stands. -/
def Reads (tables : TypeTables) (desc : List UInt8) (visited : List String) (ty : OliveType) : Prop :=
  ∀ visiting, Visits visiting visited → ∀ out, Ascii out →
    encodeDescriptor tables visiting ty out <+: desc → ReadsBack tables desc visiting ty out

theorem ReadsBack.skip (h : ReadsBack tables desc visiting ty out)
    (hp : encodeDescriptor tables visiting ty out <+: desc) :
    skip desc out.length = some (encodeDescriptor tables visiting ty out).length := by
  refine h.skips desc.length ?_
  have hle := hp.length_le
  omega

/-- Along a list of types whose descriptors go one after another: `base` bytes stand before the first,
and `full` has all of them. -/
theorem pushes_induction {τ : Type} {push : List UInt8 → τ → List UInt8} {all : List τ} {base : Nat}
    {full : List UInt8} {motive : List τ → List UInt8 → Prop}
    (hext : ∀ t ∈ all, ∀ out, out <+: push out t)
    (hascii : ∀ t ∈ all, ∀ out, Ascii out → Ascii (push out t))
    (nil : ∀ out, Ascii out → motive [] out)
    (cons : ∀ t ∈ all, ∀ ts out, Ascii out → base ≤ out.length → push out t <+: full →
      motive ts (push out t) → motive (t :: ts) out)
    (out : List UInt8) (hout : Ascii out) (hbase : base ≤ out.length)
    (hfull : all.foldl push out <+: full) : motive all out := by
  suffices H : ∀ ts : List τ, ts ⊆ all → ∀ out, Ascii out → base ≤ out.length →
      ts.foldl push out <+: full → motive ts out from
    H all (List.Subset.refl _) out hout hbase hfull
  intro ts
  induction ts with
  | nil => exact fun _ out hout _ _ => nil out hout
  | cons t ts ih =>
    intro hsub out hout hbase hfull
    have ht := hsub List.mem_cons_self
    have hts : ts ⊆ all := fun x hx => hsub (List.mem_cons_of_mem _ hx)
    have hgrows := (hext t ht out).length_le
    have hrest : push out t <+: full :=
      (foldl_extends (fun x hx => hext x (hts hx)) (push out t)).trans hfull
    exact cons t ht ts out hout hbase hrest
      (ih hts _ (hascii t ht out hout) (by omega) hfull)

section Lists

variable {τ : Type} {push : List UInt8 → τ → List UInt8} {ts : List τ} {base : Nat}
  {full : List UInt8}

theorem repeatSkip_pushes {step : Nat → Option Nat}
    (hext : ∀ t ∈ ts, ∀ out, out <+: push out t)
    (hascii : ∀ t ∈ ts, ∀ out, Ascii out → Ascii (push out t))
    (hstep : ∀ t ∈ ts, ∀ out, Ascii out → base ≤ out.length → push out t <+: full →
      step out.length = some (push out t).length)
    (hout : Ascii out) (hbase : base ≤ out.length) (hfull : ts.foldl push out <+: full) :
    repeatSkip step ts.length out.length = some (ts.foldl push out).length := by
  refine @pushes_induction τ push ts base full
    (fun ts out => repeatSkip step ts.length out.length = some (ts.foldl push out).length)
    hext hascii (fun _ _ => rfl) ?_ out hout hbase hfull
  intro t ht ts out hout hbase hpush ih
  rw [List.length_cons, repeatSkip, hstep t ht out hout hbase hpush, Option.bind_some, ih]
  rfl

variable {α : Type} {body : Nat → Nat → Walked α} {body' : Nat → τ → List UInt8 → Walked α}

theorem forRange_pushes (hext : ∀ t ∈ ts, ∀ out, out <+: push out t)
    (hascii : ∀ t ∈ ts, ∀ out, Ascii out → Ascii (push out t))
    (hbody : ∀ t ∈ ts, ∀ i out, Ascii out → base ≤ out.length → push out t <+: full →
      body i out.length = body' i t out ∧ (body' i t out).EndsAt (push out t).length)
    (i : Nat) (hout : Ascii out) (hbase : base ≤ out.length) (hfull : ts.foldl push out <+: full) :
    forRange body ts.length i out.length = forTypes body' push ts i out := by
  refine @pushes_induction τ push ts base full
    (fun ts out => ∀ i, forRange body ts.length i out.length = forTypes body' push ts i out)
    hext hascii ?_ ?_ out hout hbase hfull i
  · intro out hout i
    rw [forTypes, posAfter_of_ascii hout]
    rfl
  · intro t ht ts out hout hbase hpush ih i
    obtain ⟨heq, hends⟩ := hbody t ht i out hout hbase hpush
    rw [List.length_cons, forRange, forTypes, heq]
    exact andThen_congr hends (ih (i + 1))

theorem forTypes_ends (hext : ∀ t ∈ ts, ∀ out, out <+: push out t)
    (hascii : ∀ t ∈ ts, ∀ out, Ascii out → Ascii (push out t))
    (hbody : ∀ t ∈ ts, ∀ i out, Ascii out → base ≤ out.length → push out t <+: full →
      (body' i t out).ends = some (push out t).length)
    (i : Nat) (hout : Ascii out) (hbase : base ≤ out.length) (hfull : ts.foldl push out <+: full) :
    (forTypes body' push ts i out).ends = some (ts.foldl push out).length := by
  refine @pushes_induction τ push ts base full
    (fun ts out => ∀ i, (forTypes body' push ts i out).ends = some (ts.foldl push out).length)
    hext hascii ?_ ?_ out hout hbase hfull i
  · intro out hout i
    rw [forTypes, posAfter_of_ascii hout]
    rfl
  · intro t ht ts out hout hbase hpush ih i
    rw [forTypes, andThen_ends (hbody t ht i out hout hbase hpush)]
    exact ih (i + 1)

theorem visitAll_ends {visits : List (Walked α)} (h : ∀ w ∈ visits, ∃ pos, w.ends = some pos) :
    ∃ pos, (visitAll visits).ends = some pos := by
  induction visits with
  | nil => exact ⟨0, rfl⟩
  | cons w visits ih =>
    obtain ⟨pos, hpos⟩ := h w List.mem_cons_self
    have hrest := ih fun w hw => h w (List.mem_cons_of_mem _ hw)
    show ∃ pos, (w.andThen fun _ => visitAll visits).ends = some pos
    rwa [andThen_ends hpos]

end Lists

theorem tag_ascii {arm : DescriptorArm} (h : descriptorArm tables visiting ty = arm) :
    arm.tag.toNat < 128 := by
  have htagged := @descriptorArm_tagged tables visiting ty
  rw [h] at htagged
  cases arm with
  | leaf tag =>
    simp only [DescriptorArm.Tagged, List.mem_cons, List.not_mem_nil, or_false] at htagged
    show tag.toNat < 128
    rcases htagged with rfl | rfl | rfl | rfl | rfl | rfl | rfl | rfl | rfl <;> decide
  | seq tag item =>
    show tag.toNat < 128
    rcases htagged with rfl | rfl <;> decide
  | struct tag name fields =>
    show tag.toNat < 128
    rcases htagged with rfl | rfl <;> decide
  | dict key value => exact (by decide : (9 : UInt8).toNat < 128)
  | tuple items => exact (by decide : (10 : UInt8).toNat < 128)
  | «enum» name variants => exact (by decide : (13 : UInt8).toNat < 128)
  | backref target => exact (by decide : (14 : UInt8).toNat < 128)

theorem arm_of_visits {arm : DescriptorArm} (hv : Visits visiting visited)
    (h : armIn tables visited ty = arm) (hne : ∀ target, arm ≠ .backref target) :
    descriptorArm tables visiting ty = arm := by
  subst h
  exact (arm_of_armIn hv ty).eq hne

/-- `out'` is `out` with ASCII bytes other than NUL after it. -/
def Adds (out out' : List UInt8) : Prop :=
  ∃ rest, out' = out ++ rest ∧ ∀ b ∈ rest, b.toNat < 128 ∧ b ≠ 0

section Adds

variable {out' out'' : List UInt8}

theorem Adds.trans (h : Adds out out') (h' : Adds out' out'') : Adds out out'' := by
  obtain ⟨rest, rfl, hrest⟩ := h
  obtain ⟨rest', rfl, hrest'⟩ := h'
  refine ⟨rest ++ rest', List.append_assoc _ _ _, fun b hb => ?_⟩
  rcases List.mem_append.mp hb with hb | hb
  · exact hrest b hb
  · exact hrest' b hb

theorem Adds.ascii (h : Adds out out') (hout : Ascii out) : Ascii out' := by
  obtain ⟨rest, rfl, hrest⟩ := h
  exact hout.append fun b hb => (hrest b hb).1

theorem adds_byte {b : UInt8} (hb : b.toNat < 128) (h0 : b ≠ 0) : Adds out (out ++ [b]) := by
  refine ⟨[b], rfl, fun c hc => ?_⟩
  rw [List.mem_singleton.mp hc]
  exact ⟨hb, h0⟩

theorem adds_count {n bias : Nat} (hbias : 0 < bias) (hn : n + bias < 128) :
    Adds out (out ++ [(n + bias).toUInt8]) := by
  have hbyte := toNat_toUInt8 (show n + bias < 256 by omega)
  refine adds_byte (by omega) fun h0 => ?_
  rw [h0] at hbyte
  have hzero : (0 : UInt8).toNat = 0 := rfl
  omega

theorem adds_tag {arm : DescriptorArm} (h : descriptorArm tables visiting ty = arm) :
    Adds out (out ++ [arm.tag]) := by
  refine adds_byte (tag_ascii h) ?_
  have htagged := @descriptorArm_tagged tables visiting ty
  rw [h] at htagged
  cases arm with
  | leaf tag =>
    show tag ≠ 0
    rintro rfl
    simp [DescriptorArm.Tagged] at htagged
  | seq tag item =>
    show tag ≠ 0
    rcases htagged with rfl | rfl <;> decide
  | struct tag name fields =>
    show tag ≠ 0
    rcases htagged with rfl | rfl <;> decide
  | dict key value => exact (by decide : (9 : UInt8) ≠ 0)
  | tuple items => exact (by decide : (10 : UInt8) ≠ 0)
  | «enum» name variants => exact (by decide : (13 : UInt8) ≠ 0)
  | backref target => exact (by decide : (14 : UInt8) ≠ 0)

theorem FitsName.adds_push {s : String} (h : FitsName s) : Adds out (pushLenPrefixed out s) := by
  have hshort := h.short
  rw [pushLenPrefixed_eq (by omega), List.append_cons]
  exact (adds_count (by decide) (by omega)).trans ⟨_, rfl, fun b hb => ⟨h.ascii b hb, h.nonzero b hb⟩⟩

theorem FitsName.adds_head {name : String} {n : Nat} (h : FitsName name) (hn : n ≤ 114) :
    Adds out (pushHead out name n) :=
  h.adds_push.trans (adds_count (by decide) (by omega))

theorem foldl_adds {τ : Type} {push : List UInt8 → τ → List UInt8} {ts : List τ}
    (h : ∀ t ∈ ts, ∀ out, Adds out (push out t)) : Adds out (ts.foldl push out) := by
  induction ts generalizing out with
  | nil => exact ⟨[], by simp, fun b hb => by cases hb⟩
  | cons t ts ih =>
    exact (h t List.mem_cons_self out).trans (ih fun t ht => h t (List.mem_cons_of_mem _ ht))

end Adds

theorem Fits.adds (h : Fits tables visited ty) : ∀ visiting, Visits visiting visited → ∀ out,
    Adds out (encodeDescriptor tables visiting ty out) := by
  induction h with
  | leaf harm =>
    intro visiting hv out
    have harm' := arm_of_visits hv harm (by simp)
    rw [encode_leaf harm']
    exact adds_tag harm'
  | seq harm _ ih =>
    intro visiting hv out
    have harm' := arm_of_visits hv harm (by simp)
    rw [encode_seq harm']
    exact (adds_tag harm').trans (ih visiting hv _)
  | dict harm _ _ ihKey ihValue =>
    intro visiting hv out
    have harm' := arm_of_visits hv harm (by simp)
    rw [encode_dict harm']
    exact ((adds_tag harm').trans (ihKey visiting hv _)).trans (ihValue visiting hv _)
  | tuple harm hcount _ ih =>
    intro visiting hv out
    have harm' := arm_of_visits hv harm (by simp)
    rw [encode_tuple harm', List.append_cons]
    refine ((adds_tag harm').trans (@adds_count _ _ 1 (by decide) (by omega))).trans (foldl_adds ?_)
    exact fun item hmem out => ih item hmem visiting hv out
  | struct harm hname hcount hnames _ ih =>
    intro visiting hv out
    have harm' := arm_of_visits hv harm (by simp)
    rw [encode_struct harm']
    refine ((adds_tag harm').trans (hname.adds_head hcount)).trans (foldl_adds ?_)
    intro f hf out'
    exact (hnames f hf).adds_push.trans (ih f hf _ (hv.insert _ _) _)
  | «enum» harm hname hcount hheads _ ih =>
    intro visiting hv out
    have harm' := arm_of_visits hv harm (by simp)
    rw [encode_enum harm']
    refine ((adds_tag harm').trans (hname.adds_head hcount)).trans (foldl_adds ?_)
    intro variant hmem out'
    obtain ⟨hvname, hvcount⟩ := hheads variant hmem
    refine (hvname.adds_head hvcount).trans (foldl_adds ?_)
    exact fun item hitem out'' => ih variant hmem item hitem _ (hv.insert _ _) out''

/-- A type that fits adds bytes below 128 only. -/
theorem Fits.ascii (h : Fits tables visited ty) (visiting : FxHashMap String Nat)
    (hv : Visits visiting visited) (out : List UInt8) (hout : Ascii out) :
    Ascii (encodeDescriptor tables visiting ty out) :=
  (h.adds visiting hv out).ascii hout

section Nodes

theorem getElem?_tag (hp : encodeDescriptor tables visiting ty out <+: desc) :
    desc[out.length]? = some (descriptorArm tables visiting ty).tag :=
  getElem?_of_extends ((encode_tag visiting ty out).trans hp)

/-- What is left to show of a type's own descriptor, past its tag. -/
theorem readsBack_of_node {arm : DescriptorArm} (harm : descriptorArm tables visiting ty = arm)
    (hne : arm.tag ≠ 14) (hascii : Ascii (encodeDescriptor tables visiting ty out))
    (hp : encodeDescriptor tables visiting ty out <+: desc)
    (hskip : ∀ depth, (encodeDescriptor tables visiting ty out).length ≤ out.length + 1 + depth →
      skipDepth desc (depth + 1) out.length = some (encodeDescriptor tables visiting ty out).length)
    (hnode : ∀ {α : Type} (walker : Walker) (zero : α) depth v,
      note (.enter v out.length arm.tag)
          (walkNode walker desc zero (walk walker desc zero depth) v arm.tag (out ++ [arm.tag]).length) =
        (expectedNode walker tables zero (expected walker tables zero depth) v visiting ty out).andThen
          fun _ => goesTo (some (encodeDescriptor tables visiting ty out).length))
    (hends : ∀ {α : Type} (walker : Walker) (zero : α) depth v,
      (encodeDescriptor tables visiting ty out).length ≤ out.length + 1 + depth →
      ∃ pos, (expectedNode walker tables zero (expected walker tables zero depth) v visiting ty
        out).ends = some pos) : ReadsBack tables desc visiting ty out := by
  have hskip' : ∀ depth, (encodeDescriptor tables visiting ty out).length ≤ out.length + depth →
      skipDepth desc depth out.length = some (encodeDescriptor tables visiting ty out).length := by
    intro depth hdepth
    have hlength := @encode_length tables visiting ty out
    cases depth with
    | zero => omega
    | succ depth => exact hskip depth (by omega)
  refine ⟨hskip', ?_, ?_⟩
  · intro α walker zero depth v
    cases depth with
    | zero => rfl
    | succ depth =>
      rw [expected, walk, posAfter_of_ascii hascii]
      by_cases hmet : (walker.skipsMet && v.isMet) = true
      · have hle := hp.length_le
        rw [if_pos hmet, if_pos hmet, goesTo_some_andThen, skip, hskip' _ (by omega)]
      · rw [if_neg hmet, if_neg hmet, getElem?_tag hp, harm]
        simp only
        rw [if_neg (fun h => hne h.1), ← hnode walker zero depth v, List.length_append,
          List.length_singleton]
  · intro α walker zero depth v hdepth
    have hlength := @encode_length tables visiting ty out
    cases depth with
    | zero => omega
    | succ depth =>
      rw [expected, posAfter_of_ascii hascii]
      by_cases hmet : (walker.skipsMet && v.isMet) = true
      · rw [if_pos hmet, goesTo_some_andThen]
        rfl
      · obtain ⟨pos, hpos⟩ := hends walker zero depth v (by omega)
        rw [if_neg hmet, andThen_ends hpos]
        rfl

theorem reads_leaf {tag : UInt8} (harm : descriptorArm tables visiting ty = .leaf tag)
    (hout : Ascii out) (hp : encodeDescriptor tables visiting ty out <+: desc) :
    ReadsBack tables desc visiting ty out := by
  have htag := @descriptorArm_tagged tables visiting ty
  rw [harm] at htag
  simp only [DescriptorArm.Tagged, List.mem_cons, List.not_mem_nil, or_false] at htag
  have hget := getElem?_tag hp
  rw [harm] at hget
  have hlength : (encodeDescriptor tables visiting ty out).length = out.length + 1 := by
    rw [encode_leaf harm, List.length_append, List.length_singleton]
  have hascii : Ascii (encodeDescriptor tables visiting ty out) := by
    rw [encode_leaf harm]
    exact hout.append (ascii_singleton (tag_ascii harm))
  refine readsBack_of_node harm ?_ hascii hp ?_ ?_ ?_
  · show tag ≠ 14
    rcases htag with rfl | rfl | rfl | rfl | rfl | rfl | rfl | rfl | rfl <;> decide
  · intro depth _
    rw [skipDepth, hget, hlength]
    simp only [DescriptorArm.tag, Option.bind_some]
    rcases htag with rfl | rfl | rfl | rfl | rfl | rfl | rfl | rfl | rfl <;> rfl
  · intro α walker zero depth v
    have hwalk : walkNode walker desc zero (walk walker desc zero depth) v tag (out ++ [tag]).length =
        goesTo (some (out ++ [tag]).length) := by
      rcases htag with rfl | rfl | rfl | rfl | rfl | rfl | rfl | rfl | rfl <;> rfl
    simp only [DescriptorArm.tag, expectedNode, harm, hwalk, posAfter_of_ascii hout, encode_leaf harm,
      note_andThen, goesTo_some_andThen]
  · intro α walker zero depth v _
    simp only [expectedNode, harm]
    exact ⟨0, rfl⟩

theorem visitAll_congr {α : Type} {visit visit' : Value α → Walked α} (h : ∀ v, visit v = visit' v)
    (vs : List (Value α)) : visitAll (vs.map visit) = visitAll (vs.map visit') := by
  rw [funext h]

theorem reads_seq {tag : UInt8} {item : OliveType}
    (harm : descriptorArm tables visiting ty = .seq tag item) (hout : Ascii out)
    (hascii : Ascii (encodeDescriptor tables visiting ty out))
    (hp : encodeDescriptor tables visiting ty out <+: desc)
    (hitem : ReadsBack tables desc visiting item (out ++ [tag])) :
    ReadsBack tables desc visiting ty out := by
  have htag := @descriptorArm_tagged tables visiting ty
  rw [harm] at htag
  have hget := getElem?_tag hp
  rw [harm] at hget
  have henc : encodeDescriptor tables visiting ty out =
      encodeDescriptor tables visiting item (out ++ [tag]) := encode_seq harm
  have hpos : (out ++ [tag]).length = out.length + 1 := by simp
  refine readsBack_of_node harm ?_ hascii hp ?_ ?_ ?_
  · show tag ≠ 14
    rcases htag with rfl | rfl <;> decide
  · intro depth hdepth
    have hrest : skipDepth desc depth (out.length + 1) =
        some (encodeDescriptor tables visiting ty out).length := by
      rw [← hpos, henc]
      exact hitem.skips depth (by rw [← henc]; omega)
    rw [skipDepth, hget]
    simp only [DescriptorArm.tag, Option.bind_some]
    rcases htag with rfl | rfl <;> exact hrest
  · intro α walker zero depth v
    have hskip := hitem.skip (henc ▸ hp)
    have hitemTag := @getElem?_tag tables visiting item desc (out ++ [tag]) (henc ▸ hp)
    have hvisits := visitAll_congr (fun x => hitem.walks walker zero depth x) (v.items?.getD [])
    have hwalk : walkNode walker desc zero (walk walker desc zero depth) v tag (out ++ [tag]).length =
        walkSeq walker desc (walk walker desc zero depth) v (out ++ [tag]).length := by
      rcases htag with rfl | rfl <;> rfl
    show note (.enter v out.length tag) (walkNode walker desc zero _ v tag (out ++ [tag]).length) = _
    simp only [expectedNode, harm, hwalk, posAfter_of_ascii hout, note_andThen, walkSeq, hskip,
      hitemTag, hvisits, Option.any_some, goesTo_some_andThen, ite_self, henc]
  · intro α walker zero depth v hdepth
    simp only [expectedNode, harm, note]
    split
    · refine visitAll_ends ?_
      intro w hw
      obtain ⟨x, -, rfl⟩ := List.mem_map.mp hw
      exact ⟨_, hitem.ends walker zero depth x (by rw [← henc, hpos]; omega)⟩
    · exact ⟨0, rfl⟩

theorem reads_dict {key value : OliveType}
    (harm : descriptorArm tables visiting ty = .dict key value) (hout : Ascii out)
    (hascii : Ascii (encodeDescriptor tables visiting ty out))
    (hp : encodeDescriptor tables visiting ty out <+: desc)
    (hkey : ReadsBack tables desc visiting key (out ++ [9]))
    (hvalue : ReadsBack tables desc visiting value (encodeDescriptor tables visiting key (out ++ [9]))) :
    ReadsBack tables desc visiting ty out := by
  have hget := getElem?_tag hp
  rw [harm] at hget
  have henc := @encode_dict tables visiting ty out key value harm
  have hpos : (out ++ [9]).length = out.length + 1 := by simp
  have hkeyPrefix := @encode_extends tables visiting value
    (encodeDescriptor tables visiting key (out ++ [9]))
  have hkeyLength := hkeyPrefix.length_le
  have hgrows := @encode_length tables visiting key (out ++ [9])
  rw [← henc] at hkeyPrefix hkeyLength
  refine readsBack_of_node harm (by decide : (9 : UInt8) ≠ 14) hascii hp ?_ ?_ ?_
  · intro depth hdepth
    have hfirst := hkey.skips depth (by omega)
    have hsecond := hvalue.skips depth (by rw [← henc]; omega)
    rw [hpos] at hfirst
    rw [skipDepth, hget]
    show (skipDepth desc depth (out.length + 1)).bind (skipDepth desc depth) = _
    rw [hfirst, Option.bind_some, hsecond, henc]
  · intro α walker zero depth v
    have hskipKey := hkey.skip (hkeyPrefix.trans hp)
    have hskipValue := hvalue.skip (henc ▸ hp)
    have hvalueTag := @getElem?_tag tables visiting value desc
      (encodeDescriptor tables visiting key (out ++ [9])) (henc ▸ hp)
    show note (.enter v out.length 9) (walkDict walker desc _ v (out ++ [9]).length) = _
    simp only [expectedNode, harm, posAfter_of_ascii hout, note_andThen, walkDict, hskipKey,
      hskipValue, hvalueTag, Option.any_some, goesTo_some_andThen, henc, hkey.walks, hvalue.walks]
  · intro α walker zero depth v hdepth
    have hkeyEnds := fun x => hkey.ends walker zero depth x (by omega)
    have hvalueEnds := fun x => hvalue.ends walker zero depth x (by rw [← henc]; omega)
    simp only [expectedNode, harm, note]
    refine visitAll_ends ?_
    intro w hw
    obtain ⟨e, -, rfl⟩ := List.mem_map.mp hw
    have hkeyVisit : ∃ pos, (if walker.visitsKeys = true then
        expected walker tables zero depth e.1 visiting key (out ++ [9])
        else goesTo (some 0)).ends = some pos := by
      split
      · exact ⟨_, hkeyEnds e.1⟩
      · exact ⟨0, rfl⟩
    obtain ⟨pos, hpos⟩ := hkeyVisit
    rw [andThen_ends hpos]
    split
    · exact ⟨_, hvalueEnds e.2⟩
    · exact ⟨0, rfl⟩

/-- A part is visited, or passed over, as it should be. -/
theorem visitPart_reads {α : Type} {item : OliveType} (walker : Walker) (zero : α) (depth : Nat)
    (part? : Option (Value α)) (hascii : Ascii (encodeDescriptor tables visiting item out))
    (hp : encodeDescriptor tables visiting item out <+: desc)
    (hitem : ReadsBack tables desc visiting item out) :
    visitPart part? (fun part => walk walker desc zero depth part out.length) (skip desc out.length) =
        visitPart part? (fun part => expected walker tables zero depth part visiting item out)
          (some (posAfter (encodeDescriptor tables visiting item out))) ∧
      (visitPart part? (fun part => expected walker tables zero depth part visiting item out)
        (some (posAfter (encodeDescriptor tables visiting item out)))).EndsAt
          (encodeDescriptor tables visiting item out).length := by
  rw [hitem.skip hp, posAfter_of_ascii hascii]
  cases part? with
  | none => exact ⟨rfl, goesTo_endsAt _⟩
  | some part =>
    have hends := @expected_endsAt α walker tables zero part visiting item out depth
    rw [posAfter_of_ascii hascii] at hends
    exact ⟨hitem.walks walker zero depth part, hends⟩

theorem visitPart_ends {α : Type} {item : OliveType} (walker : Walker) (zero : α) (depth : Nat)
    (part? : Option (Value α)) (hascii : Ascii (encodeDescriptor tables visiting item out))
    (hitem : ReadsBack tables desc visiting item out)
    (hdepth : (encodeDescriptor tables visiting item out).length ≤ out.length + depth) :
    (visitPart part? (fun part => expected walker tables zero depth part visiting item out)
      (some (posAfter (encodeDescriptor tables visiting item out)))).ends =
        some (encodeDescriptor tables visiting item out).length := by
  rw [posAfter_of_ascii hascii]
  cases part? with
  | none => rfl
  | some part => exact hitem.ends walker zero depth part hdepth

theorem reads_tuple {items : List OliveType}
    (harm : descriptorArm tables visiting ty = .tuple items) (hcount : items.length ≤ 126)
    (hout : Ascii out) (hp : encodeDescriptor tables visiting ty out <+: desc)
    (hpush : ∀ item ∈ items, ∀ out, Ascii out → Ascii (pushItem tables visiting out item))
    (hitems : ∀ item ∈ items, ∀ out, Ascii out → pushItem tables visiting out item <+: desc →
      ReadsBack tables desc visiting item out) : ReadsBack tables desc visiting ty out := by
  have hget := getElem?_tag hp
  rw [harm] at hget
  have hstart : out ++ [10, (items.length + 1).toUInt8] =
      (out ++ [10]) ++ [(items.length + 1).toUInt8] := by simp
  have henc : encodeDescriptor tables visiting ty out = items.foldl (pushItem tables visiting)
      ((out ++ [10]) ++ [(items.length + 1).toUInt8]) := by
    rw [encode_tuple harm, hstart]
    rfl
  have hext : ∀ item ∈ items, ∀ out, out <+: pushItem tables visiting out item :=
    fun item _ out => encode_extends visiting item out
  have hhead : Ascii (out ++ [10]) := hout.append (ascii_singleton (by decide))
  have hbegin : Ascii ((out ++ [10]) ++ [(items.length + 1).toUInt8]) :=
    hhead.append (ascii_count (by omega))
  have hbeginPrefix : (out ++ [10]) ++ [(items.length + 1).toUInt8] <+: desc :=
    (henc ▸ foldl_extends hext _).trans hp
  have hlength : ((out ++ [10]) ++ [(items.length + 1).toUInt8]).length = out.length + 2 := by simp
  have hbase : out.length + 1 ≤ ((out ++ [10]) ++ [(items.length + 1).toUInt8]).length := by omega
  have hpos : (out ++ [10]).length = out.length + 1 := by simp
  have hascii : Ascii (encodeDescriptor tables visiting ty out) := henc ▸ foldl_ascii hpush hbegin
  have hfull : items.foldl (pushItem tables visiting)
      ((out ++ [10]) ++ [(items.length + 1).toUInt8]) <+: encodeDescriptor tables visiting ty out :=
    henc ▸ List.prefix_rfl
  refine readsBack_of_node harm (by decide : (10 : UInt8) ≠ 14) hascii hp ?_ ?_ ?_
  · intro depth hdepth
    have hread := readCount_of_extends (by omega) hbeginPrefix
    have hrest := @repeatSkip_pushes _ _ _ _ _ _ (skipDepth desc depth) hext hpush ?_ hbegin hbase hfull
    · rw [skipDepth, hget]
      show (readCount 1 desc (out.length + 1)).bind
        (fun n => repeatSkip (skipDepth desc depth) n (out.length + 2)) = _
      rw [← hpos, hread, Option.bind_some, ← hlength, hrest, henc]
    · intro item hmem out' hout' hbase hpush'
      have hle := hpush'.length_le
      exact (hitems item hmem out' hout' (hpush'.trans hp)).skips depth
        (by unfold pushItem at hle; omega)
  · intro α walker zero depth v
    show note (.enter v out.length 10) (walkTuple walker desc zero _ v (out ++ [10]).length) = _
    rw [walkTuple, readCounted_of_extends (by omega) hbeginPrefix]
    simp only [expectedNode, harm, posAfter_of_ascii hout, posAfter_of_ascii hhead, hstart,
      note_andThen]
    have hends : ∀ body : Nat → OliveType → List UInt8 → Walked α,
        (forTypes body (pushItem tables visiting) items 0
          ((out ++ [10]) ++ [(items.length + 1).toUInt8])).EndsAt
            (encodeDescriptor tables visiting ty out).length := by
      intro body
      rw [← posAfter_of_ascii hascii, henc]
      exact forTypes_endsAt items 0
    rw [andThen_goesTo (hends _)]
    congr 2
    refine forRange_pushes hext hpush ?_ 0 hbegin hbase hfull
    intro item hmem i out' hout' _ hpush'
    exact visitPart_reads walker zero depth _ (hpush item hmem out' hout') (hpush'.trans hp)
      (hitems item hmem out' hout' (hpush'.trans hp))
  · intro α walker zero depth v hdepth
    simp only [expectedNode, harm, note, hstart]
    refine ⟨_, forTypes_ends hext hpush ?_ 0 hbegin hbase hfull⟩
    intro item hmem i out' hout' hbase hpush'
    have hle := hpush'.length_le
    exact visitPart_ends walker zero depth _ (hpush item hmem out' hout')
      (hitems item hmem out' hout' (hpush'.trans hp)) (by unfold pushItem at hle; omega)

/-- A field is read as it should be: its name, then its value. -/
theorem field_reads {α : Type} {f : String × OliveType} (walker : Walker) (zero : α) (depth : Nat)
    (shared : Bool) (v : Value α) (i : Nat) (hname : FitsName f.1) (hout : Ascii out)
    (hascii : Ascii (pushField tables visiting out f)) (hp : pushField tables visiting out f <+: desc)
    (hfield : ReadsBack tables desc visiting f.2 (pushLenPrefixed out f.1)) :
    walkField walker desc zero (walk walker desc zero depth) shared v i out.length =
        expectedField walker tables zero (expected walker tables zero depth) visiting shared v i f out ∧
      (expectedField walker tables zero (expected walker tables zero depth) visiting shared v i f
        out).EndsAt (pushField tables visiting out f).length := by
  have hnamePrefix := (@encode_extends tables visiting f.2 (pushLenPrefixed out f.1)).trans hp
  obtain ⟨heq, hends⟩ := visitPart_reads walker zero depth (walker.field? zero shared v i) hascii hp
    hfield
  rw [walkField, readName_of_extends hname hnamePrefix, heq, expectedField, posAfter_of_ascii hout]
  exact ⟨rfl, hends⟩

theorem field_ends {α : Type} {f : String × OliveType} (walker : Walker) (zero : α) (depth : Nat)
    (shared : Bool) (v : Value α) (i : Nat) (hascii : Ascii (pushField tables visiting out f))
    (hfield : ReadsBack tables desc visiting f.2 (pushLenPrefixed out f.1))
    (hdepth : (pushField tables visiting out f).length ≤ out.length + depth) :
    (expectedField walker tables zero (expected walker tables zero depth) visiting shared v i f
      out).ends = some (pushField tables visiting out f).length := by
  have hstart := (pushLenPrefixed_extends out f.1).length_le
  exact visitPart_ends walker zero depth _ hascii hfield (by unfold pushField at hdepth; omega)

theorem reads_struct {tag : UInt8} {name : String} {fields : List (String × OliveType)}
    (harm : descriptorArm tables visiting ty = .struct tag name fields) (hname : FitsName name)
    (hcount : fields.length ≤ 114) (hnames : ∀ f ∈ fields, FitsName f.1) (hout : Ascii out)
    (hp : encodeDescriptor tables visiting ty out <+: desc)
    (hpush : ∀ f ∈ fields, ∀ out', Ascii out' →
      Ascii (pushField tables (visiting.insert name out.length) out' f))
    (hfields : ∀ f ∈ fields, ∀ out', Ascii out' →
      pushField tables (visiting.insert name out.length) out' f <+: desc →
      ReadsBack tables desc (visiting.insert name out.length) f.2 (pushLenPrefixed out' f.1)) :
    ReadsBack tables desc visiting ty out := by
  have htag := @descriptorArm_tagged tables visiting ty
  rw [harm] at htag
  have hget := getElem?_tag hp
  rw [harm] at hget
  have henc := @encode_struct tables visiting ty out tag name fields harm
  have hext : ∀ f ∈ fields, ∀ out', out' <+: pushField tables (visiting.insert name out.length) out' f :=
    fun f _ out' => pushField_extends _ out' f
  have hhead : Ascii (out ++ [tag]) := hout.append (ascii_singleton (tag_ascii harm))
  have hheadName : Ascii (pushLenPrefixed (out ++ [tag]) name) := hname.ascii_push hhead
  have hbegin : Ascii (pushHead (out ++ [tag]) name fields.length) := hname.ascii_head hcount hhead
  have hbeginPrefix : pushHead (out ++ [tag]) name fields.length <+: desc :=
    (henc ▸ foldl_extends hext _).trans hp
  have hpos : (out ++ [tag]).length = out.length + 1 := by simp
  have hbase : out.length + 1 ≤ (pushHead (out ++ [tag]) name fields.length).length :=
    hpos ▸ (pushHead_extends (out ++ [tag]) name fields.length).length_le
  have hascii : Ascii (encodeDescriptor tables visiting ty out) := henc ▸ foldl_ascii hpush hbegin
  have hfull : fields.foldl (pushField tables (visiting.insert name out.length))
      (pushHead (out ++ [tag]) name fields.length) <+: encodeDescriptor tables visiting ty out :=
    henc ▸ List.prefix_rfl
  refine readsBack_of_node harm ?_ hascii hp ?_ ?_ ?_
  · show tag ≠ 14
    rcases htag with rfl | rfl <;> decide
  · intro depth hdepth
    have hrest := @repeatSkip_pushes _ _ _ _ _ _
      (fun pos => (skipLp desc pos).bind (skipDepth desc depth)) hext hpush ?_ hbegin hbase hfull
    · have hskip := @skipHead_of_extends desc (out ++ [tag]) name fields.length
        (repeatSkip fun pos => (skipLp desc pos).bind (skipDepth desc depth)) hname hcount hbeginPrefix
      rw [hrest, hpos, ← henc] at hskip
      rw [skipDepth, hget]
      rcases htag with rfl | rfl <;> exact hskip
    · intro f hf out' hout' hbase hpush'
      have hle := hpush'.length_le
      have hstart := (pushLenPrefixed_extends out' f.1).length_le
      have hfieldPrefix := (@encode_extends tables (visiting.insert name out.length) f.2
        (pushLenPrefixed out' f.1)).trans (hpush'.trans hp)
      show (skipLp desc out'.length).bind (skipDepth desc depth) = _
      rw [skipLp_of_extends (hnames f hf) hfieldPrefix, Option.bind_some]
      exact (hfields f hf out' hout' (hpush'.trans hp)).skips depth
        (by unfold pushField at hle; omega)
  · intro α walker zero depth v
    have hwalk : walkNode walker desc zero (walk walker desc zero depth) v tag (out ++ [tag]).length =
        walkStruct walker desc zero (walk walker desc zero depth) (decide (tag = 16)) v
          (out ++ [tag]).length := by
      rcases htag with rfl | rfl <;> rfl
    show note (.enter v out.length tag) (walkNode walker desc zero _ v tag (out ++ [tag]).length) = _
    rw [hwalk, walkStruct, readHead_of_extends hname hcount hbeginPrefix]
    simp only [expectedNode, harm, posAfter_of_ascii hout, posAfter_of_ascii hhead,
      posAfter_of_ascii hheadName, note_andThen]
    have hends : ∀ body : Nat → String × OliveType → List UInt8 → Walked α,
        (forTypes body (pushField tables (visiting.insert name out.length)) fields 0
          (pushHead (out ++ [tag]) name fields.length)).EndsAt
            (encodeDescriptor tables visiting ty out).length := by
      intro body
      rw [← posAfter_of_ascii hascii, henc]
      exact forTypes_endsAt fields 0
    rw [andThen_goesTo (hends _)]
    congr 3
    refine forRange_pushes hext hpush ?_ 0 hbegin hbase hfull
    intro f hf i out' hout' _ hpush'
    exact field_reads walker zero depth _ v i (hnames f hf) hout' (hpush f hf out' hout')
      (hpush'.trans hp) (hfields f hf out' hout' (hpush'.trans hp))
  · intro α walker zero depth v hdepth
    simp only [expectedNode, harm, note]
    refine ⟨_, forTypes_ends hext hpush ?_ 0 hbegin hbase hfull⟩
    intro f hf i out' hout' hbase hpush'
    have hle := hpush'.length_le
    exact field_ends walker zero depth _ v i (hpush f hf out' hout')
      (hfields f hf out' hout' (hpush'.trans hp)) (by omega)

/-- A variant is read as it should be: its name and arity, then the payloads of the value's own. -/
theorem variant_reads {α : Type} {variant : String × List OliveType} (walker : Walker) (zero : α)
    (depth : Nat) (v : Value α) (i : Nat) (hname : FitsName variant.1) (hcount : variant.2.length ≤ 114)
    (hout : Ascii out) (hp : pushVariant tables visiting out variant <+: desc)
    (hpush : ∀ item ∈ variant.2, ∀ out, Ascii out → Ascii (pushItem tables visiting out item))
    (hitems : ∀ item ∈ variant.2, ∀ out, Ascii out → pushItem tables visiting out item <+: desc →
      ReadsBack tables desc visiting item out) :
    walkVariant walker desc zero (walk walker desc zero depth) v i out.length =
        expectedVariant walker tables zero (expected walker tables zero depth) visiting v i variant
          out ∧
      (expectedVariant walker tables zero (expected walker tables zero depth) visiting v i variant
        out).EndsAt (pushVariant tables visiting out variant).length := by
  have hext : ∀ item ∈ variant.2, ∀ out, out <+: pushItem tables visiting out item :=
    fun item _ out => encode_extends visiting item out
  have hbegin := hname.ascii_head hcount hout
  have hheadPrefix := (foldl_extends hext _).trans hp
  have hlast : posAfter (pushVariant tables visiting out variant) =
      (pushVariant tables visiting out variant).length :=
    posAfter_of_ascii (foldl_ascii hpush hbegin)
  rw [walkVariant, readHead_of_extends hname hcount hheadPrefix, expectedVariant,
    posAfter_of_ascii hout, posAfter_of_ascii (hname.ascii_push hout)]
  refine ⟨?_, ?_⟩
  · congr 2
    refine forRange_pushes hext hpush ?_ 0 hbegin (Nat.zero_le _) hp
    intro item hmem j out' hout' _ hpush'
    exact visitPart_reads walker zero depth _ (hpush item hmem out' hout') hpush'
      (hitems item hmem out' hout' hpush')
  · rw [← hlast]
    exact forTypes_endsAt variant.2 0

theorem variant_ends {α : Type} {variant : String × List OliveType} (walker : Walker) (zero : α)
    (depth : Nat) (v : Value α) (i : Nat) (hname : FitsName variant.1) (hcount : variant.2.length ≤ 114)
    (hout : Ascii out) (hp : pushVariant tables visiting out variant <+: desc)
    (hpush : ∀ item ∈ variant.2, ∀ out, Ascii out → Ascii (pushItem tables visiting out item))
    (hitems : ∀ item ∈ variant.2, ∀ out, Ascii out → pushItem tables visiting out item <+: desc →
      ReadsBack tables desc visiting item out)
    (hdepth : (pushVariant tables visiting out variant).length ≤ out.length + depth) :
    (expectedVariant walker tables zero (expected walker tables zero depth) visiting v i variant
      out).ends = some (pushVariant tables visiting out variant).length := by
  have hext : ∀ item ∈ variant.2, ∀ out, out <+: pushItem tables visiting out item :=
    fun item _ out => encode_extends visiting item out
  have hstart := (pushHead_extends out variant.1 variant.2.length).length_le
  refine @forTypes_ends _ _ (pushItem tables visiting) variant.2 out.length
    (pushVariant tables visiting out variant) α _ hext hpush ?_ 0 (hname.ascii_head hcount hout)
    hstart List.prefix_rfl
  intro item hmem j out' hout' hbase hpush'
  have hle := hpush'.length_le
  exact visitPart_ends walker zero depth _ (hpush item hmem out' hout')
    (hitems item hmem out' hout' (hpush'.trans hp)) (by unfold pushItem at hle; omega)

theorem reads_enum {name : String} {variants : List (String × List OliveType)}
    (harm : descriptorArm tables visiting ty = .enum name variants) (hname : FitsName name)
    (hcount : variants.length ≤ 114)
    (hheads : ∀ variant ∈ variants, FitsName variant.1 ∧ variant.2.length ≤ 114) (hout : Ascii out)
    (hp : encodeDescriptor tables visiting ty out <+: desc)
    (hpush : ∀ variant ∈ variants, ∀ item ∈ variant.2, ∀ out', Ascii out' →
      Ascii (pushItem tables (visiting.insert name out.length) out' item))
    (hitems : ∀ variant ∈ variants, ∀ item ∈ variant.2, ∀ out', Ascii out' →
      pushItem tables (visiting.insert name out.length) out' item <+: desc →
      ReadsBack tables desc (visiting.insert name out.length) item out') :
    ReadsBack tables desc visiting ty out := by
  have hget := getElem?_tag hp
  rw [harm] at hget
  have henc := @encode_enum tables visiting ty out name variants harm
  have hextItem : ∀ variant ∈ variants, ∀ item ∈ variant.2, ∀ out',
      out' <+: pushItem tables (visiting.insert name out.length) out' item :=
    fun _ _ item _ out' => encode_extends _ item out'
  have hext : ∀ variant ∈ variants, ∀ out',
      out' <+: pushVariant tables (visiting.insert name out.length) out' variant :=
    fun variant _ out' => pushVariant_extends _ out' variant
  have hpushVariant : ∀ variant ∈ variants, ∀ out', Ascii out' →
      Ascii (pushVariant tables (visiting.insert name out.length) out' variant) := by
    intro variant hmem out' hout'
    obtain ⟨hvname, hvcount⟩ := hheads variant hmem
    exact foldl_ascii (hpush variant hmem) (hvname.ascii_head hvcount hout')
  have hhead : Ascii (out ++ [13]) := hout.append (ascii_singleton (by decide))
  have hheadName : Ascii (pushLenPrefixed (out ++ [13]) name) := hname.ascii_push hhead
  have hbegin : Ascii (pushHead (out ++ [13]) name variants.length) := hname.ascii_head hcount hhead
  have hbeginPrefix : pushHead (out ++ [13]) name variants.length <+: desc :=
    (henc ▸ foldl_extends hext _).trans hp
  have hpos : (out ++ [13]).length = out.length + 1 := by simp
  have hbase : out.length + 1 ≤ (pushHead (out ++ [13]) name variants.length).length :=
    hpos ▸ (pushHead_extends (out ++ [13]) name variants.length).length_le
  have hascii : Ascii (encodeDescriptor tables visiting ty out) :=
    henc ▸ foldl_ascii hpushVariant hbegin
  have hfull : variants.foldl (pushVariant tables (visiting.insert name out.length))
      (pushHead (out ++ [13]) name variants.length) <+: encodeDescriptor tables visiting ty out :=
    henc ▸ List.prefix_rfl
  -- the head of a variant, inside what the variant pushes
  have hvariantPrefix : ∀ variant ∈ variants, ∀ out' : List UInt8,
      pushVariant tables (visiting.insert name out.length) out' variant <+:
        encodeDescriptor tables visiting ty out →
      pushHead out' variant.1 variant.2.length <+: desc := by
    intro variant hmem out' hpush'
    exact (foldl_extends (hextItem variant hmem) _).trans (hpush'.trans hp)
  refine readsBack_of_node harm (by decide : (13 : UInt8) ≠ 14) hascii hp ?_ ?_ ?_
  · intro depth hdepth
    have hrest := @repeatSkip_pushes _ _ _ _ _ _
      (fun pos => (skipLp desc pos).bind fun pos =>
        (readCount 13 desc pos).bind fun np => repeatSkip (skipDepth desc depth) np (pos + 1))
      hext hpushVariant ?_ hbegin hbase hfull
    · have hskip := @skipHead_of_extends desc (out ++ [13]) name variants.length
        (repeatSkip fun pos => (skipLp desc pos).bind fun pos =>
          (readCount 13 desc pos).bind fun np => repeatSkip (skipDepth desc depth) np (pos + 1))
        hname hcount hbeginPrefix
      rw [hrest, hpos, ← henc] at hskip
      rw [skipDepth, hget]
      exact hskip
    · intro variant hmem out' hout' hbase' hpush'
      obtain ⟨hvname, hvcount⟩ := hheads variant hmem
      have hstart := (pushHead_extends out' variant.1 variant.2.length).length_le
      rw [skipHead_of_extends hvname hvcount (hvariantPrefix variant hmem out' hpush')]
      refine @repeatSkip_pushes _ _ (pushItem tables (visiting.insert name out.length)) _
        (out.length + 1) (pushVariant tables (visiting.insert name out.length) out' variant) _
        (hextItem variant hmem) (hpush variant hmem) ?_ (hvname.ascii_head hvcount hout')
        (by omega) List.prefix_rfl
      intro item hitem out'' hout'' hbase'' hpush''
      have hle := (hpush''.trans hpush').length_le
      exact (hitems variant hmem item hitem out'' hout'' ((hpush''.trans hpush').trans hp)).skips depth
        (by unfold pushItem at hle; omega)
  · intro α walker zero depth v
    show note (.enter v out.length 13) (walkEnum walker desc zero _ v (out ++ [13]).length) = _
    rw [walkEnum, readHead_of_extends hname hcount hbeginPrefix]
    simp only [expectedNode, harm, posAfter_of_ascii hout, posAfter_of_ascii hhead,
      posAfter_of_ascii hheadName, note_andThen]
    have hends : ∀ body : Nat → String × List OliveType → List UInt8 → Walked α,
        (forTypes body (pushVariant tables (visiting.insert name out.length)) variants 0
          (pushHead (out ++ [13]) name variants.length)).EndsAt
            (encodeDescriptor tables visiting ty out).length := by
      intro body
      rw [← posAfter_of_ascii hascii, henc]
      exact forTypes_endsAt variants 0
    rw [andThen_goesTo (hends _)]
    congr 3
    refine forRange_pushes hext hpushVariant ?_ 0 hbegin hbase hfull
    intro variant hmem i out' hout' _ hpush'
    obtain ⟨hvname, hvcount⟩ := hheads variant hmem
    exact variant_reads walker zero depth v i hvname hvcount hout' (hpush'.trans hp)
      (hpush variant hmem) (hitems variant hmem)
  · intro α walker zero depth v hdepth
    simp only [expectedNode, harm, note]
    refine ⟨_, forTypes_ends hext hpushVariant ?_ 0 hbegin hbase hfull⟩
    intro variant hmem i out' hout' hbase' hpush'
    obtain ⟨hvname, hvcount⟩ := hheads variant hmem
    have hle := hpush'.length_le
    exact variant_ends walker zero depth v i hvname hvcount hout' (hpush'.trans hp)
      (hpush variant hmem) (hitems variant hmem) (by omega)

/-- The descriptor of a type that fits is read back wherever it stands. -/
theorem Fits.reads (h : Fits tables visited ty) : Reads tables desc visited ty := by
  induction h with
  | leaf harm =>
    intro visiting hv out hout hp
    exact reads_leaf (arm_of_visits hv harm (by simp)) hout hp
  | seq harm hitem ih =>
    intro visiting hv out hout hp
    have harm' := arm_of_visits hv harm (by simp)
    have hhead := hout.append (ascii_singleton (tag_ascii harm'))
    have henc := @encode_seq tables visiting _ out _ _ harm'
    exact reads_seq harm' hout (henc ▸ hitem.ascii visiting hv _ hhead) hp
      (ih visiting hv _ hhead (henc ▸ hp))
  | dict harm hkey hvalue ihKey ihValue =>
    intro visiting hv out hout hp
    have harm' := arm_of_visits hv harm (by simp)
    have hhead := hout.append (@ascii_singleton 9 (by decide))
    have henc := @encode_dict tables visiting _ out _ _ harm'
    have hmid := hkey.ascii visiting hv _ hhead
    have hfirst := (@encode_extends tables visiting _ _).trans (henc ▸ hp)
    exact reads_dict harm' hout (henc ▸ hvalue.ascii visiting hv _ hmid) hp
      (ihKey visiting hv _ hhead hfirst) (ihValue visiting hv _ hmid (henc ▸ hp))
  | tuple harm hcount hitems ih =>
    intro visiting hv out hout hp
    refine reads_tuple (arm_of_visits hv harm (by simp)) hcount hout hp ?_ ?_
    · exact fun item hmem out' hout' => (hitems item hmem).ascii visiting hv out' hout'
    · exact fun item hmem out' hout' hp' => ih item hmem visiting hv out' hout' hp'
  | struct harm hname hcount hnames hfields ih =>
    intro visiting hv out hout hp
    refine reads_struct (arm_of_visits hv harm (by simp)) hname hcount hnames hout hp ?_ ?_
    · intro f hf out' hout'
      exact (hfields f hf).ascii _ (hv.insert _ _) _ ((hnames f hf).ascii_push hout')
    · intro f hf out' hout' hp'
      exact ih f hf _ (hv.insert _ _) _ ((hnames f hf).ascii_push hout') hp'
  | «enum» harm hname hcount hheads hpayloads ih =>
    intro visiting hv out hout hp
    refine reads_enum (arm_of_visits hv harm (by simp)) hname hcount hheads hout hp ?_ ?_
    · intro variant hmem item hitem out' hout'
      exact (hpayloads variant hmem item hitem).ascii _ (hv.insert _ _) _ hout'
    · intro variant hmem item hitem out' hout' hp'
      exact ih variant hmem item hitem _ (hv.insert _ _) _ hout' hp'

end Nodes

end Olive
