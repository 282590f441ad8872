import Olive.DescriptorFaults

/-! A descriptor is read back the way it was written exactly when its type fits. -/

namespace Olive

open Walked

variable {tables : TypeTables} {visiting : FxHashMap String Nat} {visited : List String}
  {ty : OliveType} {desc out : List UInt8}

/-- All that is being visited starts at `pos` or before. -/
def StartedBy (visiting : FxHashMap String Nat) (pos : Nat) : Prop :=
  ∀ name start, visiting name = some start → start ≤ pos

theorem StartedBy.mono {pos pos' : Nat} (h : StartedBy visiting pos) (hle : pos ≤ pos') :
    StartedBy visiting pos' :=
  fun name start hstart => Nat.le_trans (h name start hstart) hle

theorem StartedBy.insert {pos : Nat} (h : StartedBy visiting pos) (name : String) :
    StartedBy (visiting.insert name pos) pos := by
  intro n start hstart
  by_cases hn : n = name
  · simp only [FxHashMap.insert, hn, if_true, Option.some.injEq] at hstart
    omega
  · rw [FxHashMap.insert_of_ne visiting pos hn] at hstart
    exact h n start hstart

/-- Somewhere inside, the descriptor of `ty` has a zero byte or sends `fmt` astray. -/
def Spoils (tables : TypeTables) (visiting : FxHashMap String Nat) (ty : OliveType) : Prop :=
  ∀ out, Ascii out → StartedBy visiting out.length →
    ∀ desc, emitted (encodeDescriptor tables visiting ty out) <+: desc →
    ∀ {α : Type} (zero : α), 0 ∈ encodeDescriptor tables visiting ty out ∨ ∃ v : Value α, ∀ depth,
      (encodeDescriptor tables visiting ty out).length + 1 ≤ out.length + depth →
        Wrong (walk fmtVal desc zero depth v out.length)
          (expected fmtVal tables zero depth v visiting ty out)

section Lists

variable {τ : Type} {push : List UInt8 → τ → List UInt8} {before after : List τ} {t : τ} {base : Nat}
  {full : List UInt8} {α : Type} {body : Nat → Nat → Walked α}
  {body' : Nat → τ → List UInt8 → Walked α}

/-- The first of a list that fails some test. -/
theorem exists_first {P : τ → Prop} {ts : List τ} (h : ¬∀ t ∈ ts, P t) :
    ∃ before t after, ts = before ++ t :: after ∧ (∀ u ∈ before, P u) ∧ ¬P t := by
  induction ts with
  | nil => exact absurd (fun t ht => by cases ht) h
  | cons t ts ih =>
    by_cases ht : P t
    · have hrest : ¬∀ u ∈ ts, P u := by
        intro hall
        refine h fun u hu => ?_
        rcases List.mem_cons.mp hu with rfl | hu
        · exact ht
        · exact hall u hu
      obtain ⟨before, u, after, rfl, hbefore, hu⟩ := ih hrest
      refine ⟨t :: before, u, after, rfl, ?_, hu⟩
      intro w hw
      rcases List.mem_cons.mp hw with rfl | hw
      · exact ht
      · exact hbefore w hw
    · exact ⟨[], t, ts, rfl, (fun u hu => by cases hu), ht⟩

/-- A loop that reads what it should until it comes to `t`, and there goes wrong. -/
theorem wrong_at (hext : ∀ t ∈ before, ∀ out, out <+: push out t)
    (hascii : ∀ t ∈ before, ∀ out, Ascii out → Ascii (push out t))
    (hbody : ∀ t ∈ before, ∀ i out, Ascii out → base ≤ out.length → push out t <+: full →
      body i out.length = body' i t out ∧ (body' i t out).ends = some (push out t).length)
    {n i : Nat} (hn : before.length < n) (hout : Ascii out) (hbase : base ≤ out.length)
    (hfull : before.foldl push out <+: full)
    (hwrong : Wrong (body (i + before.length) (before.foldl push out).length)
      (body' (i + before.length) t (before.foldl push out))) :
    Wrong (forRange body n i out.length) (forTypes body' push (before ++ t :: after) i out) := by
  induction before generalizing out n i with
  | nil =>
    obtain ⟨n, rfl⟩ := Nat.exists_eq_succ_of_ne_zero (Nat.ne_of_gt hn)
    exact hwrong.andThen _ _
  | cons u before ih =>
    obtain ⟨n, rfl⟩ := Nat.exists_eq_succ_of_ne_zero (Nat.ne_of_gt (Nat.zero_lt_of_lt hn))
    have hmem : u ∈ u :: before := List.mem_cons_self
    have hgrows := (hext u hmem out).length_le
    have hpush : push out u <+: full :=
      (foldl_extends (fun t ht => hext t (List.mem_cons_of_mem _ ht)) (push out u)).trans hfull
    obtain ⟨heq, hends⟩ := hbody u hmem i out hout hbase hpush
    rw [List.cons_append, forRange, forTypes, heq]
    refine Wrong.next hends ?_
    refine ih (fun t ht => hext t (List.mem_cons_of_mem _ ht))
      (fun t ht => hascii t (List.mem_cons_of_mem _ ht))
      (fun t ht => hbody t (List.mem_cons_of_mem _ ht)) (by simp at hn; omega)
      (hascii u hmem out hout) (by omega) hfull ?_
    rw [List.length_cons, show i + (before.length + 1) = i + 1 + before.length by omega] at hwrong
    exact hwrong

/-- Where the first bad one of a list stands, after `before`. -/
theorem place_of_first (hext : ∀ t out, out <+: push out t)
    (hascii : ∀ t ∈ before, ∀ out, Ascii out → Ascii (push out t)) (hout : Ascii out)
    (hp : emitted ((before ++ t :: after).foldl push out) <+: desc) :
    Ascii (before.foldl push out) ∧ out.length ≤ (before.foldl push out).length ∧
      before.foldl push out <+: desc ∧
      push (before.foldl push out) t <+: (before ++ t :: after).foldl push out := by
  have hmid := foldl_ascii hascii hout
  have hextends : push (before.foldl push out) t <+: (before ++ t :: after).foldl push out := by
    rw [List.foldl_append, List.foldl_cons]
    exact foldl_extends (fun t _ => hext t) _
  have hmidPrefix := (emitted_extends ((hext t _).trans hextends)).trans hp
  rw [emitted_of_ascii hmid] at hmidPrefix
  exact ⟨hmid, (foldl_extends (fun t (_ : t ∈ before) => hext t) out).length_le, hmidPrefix, hextends⟩

end Lists

section Parts

variable {α : Type} {zero : α}

theorem fmt_part (v : Value α) (i : Nat) : ∃ part, fmtVal.part? zero v i = some part := by
  unfold Walker.part? Walker.opened
  cases v.items? with
  | none => exact ⟨_, rfl⟩
  | some vs => exact ⟨_, rfl⟩

theorem fmt_field (shared : Bool) (v : Value α) (i : Nat) :
    fmtVal.field? zero shared v i = fmtVal.part? zero v i := by
  simp [Walker.field?, fmtVal]

/-- Only the part after the first `n` is of interest. -/
def onlyPart (n : Nat) (x : Value α) (zero : α) : List (Value α) :=
  List.replicate n (.word zero) ++ [x]

theorem getD_onlyPart (n : Nat) (x : Value α) : (onlyPart n x zero).getD n (.word zero) = x := by
  simp [onlyPart, List.getD_eq_getElem?_getD]

theorem fmt_onlyPart (n : Nat) (x : Value α) :
    fmtVal.part? zero (.items (onlyPart n x zero)) n = some x :=
  congrArg some (getD_onlyPart n x)

theorem fmt_onlyPayload (i n : Nat) (x : Value α) :
    fmtVal.payload? zero (.variant i (onlyPart n x zero)) i n = some x := by
  have hget := @getD_onlyPart α zero n x
  simp only [Walker.payload?, Value.variant?, fmtVal, true_or, and_self, if_true, hget]

theorem fmt_payload (i : Nat) (vs : List (Value α)) (j : Nat) :
    ∃ part, fmtVal.payload? zero (.variant i vs) i j = some part := by
  simp [Walker.payload?, Value.variant?, fmtVal]

theorem visitPart_starts {part? : Option (Value α)} {visit : Value α → Walked α} {past : Option Nat}
    {pos : Nat} (h : ∃ part, part? = some part) (hvisit : ∀ part, Starts (visit part) pos) :
    Starts (visitPart part? visit past) pos := by
  obtain ⟨part, rfl⟩ := h
  exact hvisit part

theorem visitPart_begins {part? : Option (Value α)} {visit : Value α → Walked α} {past : Option Nat}
    {pos low : Nat} (h : ∃ part, part? = some part) (hvisit : ∀ part, Begins (visit part) pos low) :
    Begins (visitPart part? visit past) pos low := by
  obtain ⟨part, rfl⟩ := h
  exact hvisit part

end Parts

section Nodes

theorem getElem?_fmt_tag (hout : Ascii out)
    (hp : emitted (encodeDescriptor tables visiting ty out) <+: desc) :
    desc[out.length]? = some (descriptorArm tables visiting ty).tag := by
  have htag := emitted_extends (@encode_tag tables visiting ty out)
  have hascii := hout.append (ascii_singleton (@tag_ascii tables visiting ty _ rfl))
  rw [emitted_of_ascii hascii] at htag
  exact getElem?_of_extends (htag.trans hp)

/-- It is enough to go wrong past the tag. -/
theorem wrong_of_node {arm : DescriptorArm} {α : Type} {zero : α} {depth : Nat} {v : Value α}
    {u : Walked α} (harm : descriptorArm tables visiting ty = arm) (hout : Ascii out)
    (hp : emitted (encodeDescriptor tables visiting ty out) <+: desc)
    (hnode : expectedNode fmtVal tables zero (expected fmtVal tables zero depth) v visiting ty out =
      note (.enter v (posAfter out) arm.tag) u)
    (h : Wrong (walkNode fmtVal desc zero (walk fmtVal desc zero depth) v arm.tag
      (out ++ [arm.tag]).length) u) :
    Wrong (walk fmtVal desc zero (depth + 1) v out.length)
      (expected fmtVal tables zero (depth + 1) v visiting ty out) := by
  have hget := getElem?_fmt_tag hout hp
  rw [harm] at hget
  rw [walk_fmt hget, expected_fmt, hnode, posAfter_of_ascii hout, note_andThen]
  rw [List.length_append, List.length_singleton] at h
  exact (h.andThen_right _).note _

theorem spoils_seq {tag : UInt8} {item : OliveType}
    (harm : descriptorArm tables visiting ty = .seq tag item) (hitem : Spoils tables visiting item) :
    Spoils tables visiting ty := by
  intro out hout hlow desc hp α zero
  have htag := @descriptorArm_tagged tables visiting ty
  rw [harm] at htag
  have henc := @encode_seq tables visiting ty out tag item harm
  have hhead : Ascii (out ++ [tag]) := hout.append (ascii_singleton (tag_ascii harm))
  have hlength : (out ++ [tag]).length = out.length + 1 := by simp
  have hbyte := getElem?_fmt_tag hhead (henc ▸ hp)
  have hgrows := @encode_length tables visiting ty out
  have hitem' := hitem _ hhead (hlow.mono (by omega)) desc (henc ▸ hp) zero
  rw [← henc] at hitem'
  refine hitem'.imp_right ?_
  rintro ⟨x, hx⟩
  refine ⟨.items [x], fun depth hdepth => ?_⟩
  obtain ⟨depth, rfl⟩ := Nat.exists_eq_succ_of_ne_zero (show depth ≠ 0 by omega)
  have hitemWrong := hx depth (by omega)
  refine wrong_of_node harm hout hp (by rw [expectedNode, harm]; rfl) ?_
  have hwalk : walkNode fmtVal desc zero (walk fmtVal desc zero depth) (.items [x]) tag
      (out ++ [tag]).length = walkSeq fmtVal desc (walk fmtVal desc zero depth) (.items [x])
        (out ++ [tag]).length := by
    rcases htag with rfl | rfl <;> rfl
  show Wrong (walkNode fmtVal desc zero _ _ tag (out ++ [tag]).length) _
  rw [hwalk, walkSeq_fmt hbyte]
  exact (hitemWrong.andThen _ _).andThen_left _

theorem spoils_backref {target : Nat} (harm : descriptorArm tables visiting ty = .backref target) :
    Spoils tables visiting ty := by
  intro out hout _ desc hp α zero
  have hget := getElem?_fmt_tag hout hp
  rw [harm] at hget
  have hgrows := @encode_length tables visiting ty out
  refine .inr ⟨.word zero, fun depth hdepth => ?_⟩
  obtain ⟨depth, rfl⟩ : ∃ least, depth = least + 2 := ⟨depth - 2, by omega⟩
  obtain ⟨tag, rest, hne, hseen⟩ :=
    @expected_backref α tables visiting ty out zero target depth (.word zero) harm
  rw [walk_fmt hget]
  refine .inr ⟨[], _, _, _, rest, rfl, hseen, ?_⟩
  intro h
  injection h with _ _ htag
  exact hne htag.symm

theorem spoils_dict {key value : OliveType}
    (harm : descriptorArm tables visiting ty = .dict key value) (hv : Visits visiting visited)
    (hbad : Spoils tables visiting key ∨ Fits tables visited key ∧ Spoils tables visiting value) :
    Spoils tables visiting ty := by
  intro out hout hlow desc hp α zero
  have henc := @encode_dict tables visiting ty out key value harm
  have hhead : Ascii (out ++ [9]) := hout.append (ascii_singleton (by decide))
  have hlength : (out ++ [9]).length = out.length + 1 := by simp
  have hkeyExtends := @encode_extends tables visiting value
    (encodeDescriptor tables visiting key (out ++ [9]))
  rw [← henc] at hkeyExtends
  have hkeyLength := hkeyExtends.length_le
  have hkeyGrows := @encode_length tables visiting key (out ++ [9])
  rcases hbad with hkey | ⟨hfits, hvalue⟩
  · have hkey' := hkey _ hhead (hlow.mono (by omega)) desc ((emitted_extends hkeyExtends).trans hp)
      zero
    refine hkey'.imp (fun h0 => hkeyExtends.subset h0) ?_
    rintro ⟨x, hx⟩
    refine ⟨.entries [(x, .word zero)], fun depth hdepth => ?_⟩
    obtain ⟨depth, rfl⟩ := Nat.exists_eq_succ_of_ne_zero (show depth ≠ 0 by omega)
    have hkeyWrong := hx depth (by omega)
    refine wrong_of_node harm hout hp (by rw [expectedNode, harm]; rfl) ?_
    show Wrong (walkDict fmtVal desc _ _ _) _
    refine Wrong.goesTo (fun valStart => Wrong.goesTo (fun ends => Wrong.andThen_left ?_ _) _) _
    exact (hkeyWrong.andThen _ _).andThen _ _
  · have hascii := hfits.ascii visiting hv _ hhead
    have hpKey := (emitted_extends hkeyExtends).trans hp
    rw [emitted_of_ascii hascii] at hpKey
    have hreads := @Fits.reads tables visited key desc hfits visiting hv _ hhead hpKey
    have hvalue' := hvalue _ hascii (hlow.mono (by omega)) desc (henc ▸ hp) zero
    rw [← henc] at hvalue'
    refine hvalue'.imp_right ?_
    rintro ⟨x, hx⟩
    refine ⟨.entries [(.word zero, x)], fun depth hdepth => ?_⟩
    obtain ⟨depth, rfl⟩ := Nat.exists_eq_succ_of_ne_zero (show depth ≠ 0 by omega)
    refine wrong_of_node harm hout hp (by rw [expectedNode, harm]; rfl) ?_
    have hbyte := getElem?_fmt_tag hascii (henc ▸ hp)
    have hwalk := hreads.walks fmtVal zero depth (.word zero)
    have hends := hreads.ends fmtVal zero depth (.word zero) (by omega)
    show Wrong (walkDict fmtVal desc _ _ (out ++ [9]).length) _
    rw [walkDict, hreads.skip hpKey, goesTo_some_andThen]
    refine Wrong.goesTo (fun ends => Wrong.andThen_left (Wrong.andThen ?_ _ _) _) _
    show Wrong ((walk fmtVal desc zero depth (.word zero) (out ++ [9]).length).andThen _) _
    rw [hwalk, hbyte]
    exact Wrong.next hends (hx depth (by omega))

/-- Items in a row, the first that is bad after `before`: some part of it goes wrong. -/
theorem spoils_items {before after : List OliveType} {x : OliveType} (hv : Visits visiting visited)
    (hbefore : ∀ item ∈ before, Fits tables visited item) (hx : Spoils tables visiting x)
    (hout : Ascii out) (hlow : StartedBy visiting out.length)
    (hp : emitted ((before ++ x :: after).foldl (pushItem tables visiting) out) <+: desc) {α : Type}
    (zero : α) :
    0 ∈ (before ++ x :: after).foldl (pushItem tables visiting) out ∨ ∃ w : Value α, ∀ depth,
      ((before ++ x :: after).foldl (pushItem tables visiting) out).length + 1 ≤ out.length + depth →
      ∀ part : Nat → Option (Value α), part before.length = some w →
        Wrong (forRange (fun j pos => visitPart (part j) (fun p => walk fmtVal desc zero depth p pos)
            (skip desc pos)) (before ++ x :: after).length 0 out.length)
          (forTypes (fun j item out' => visitPart (part j)
            (fun p => expected fmtVal tables zero depth p visiting item out')
            (some (posAfter (pushItem tables visiting out' item)))) (pushItem tables visiting)
            (before ++ x :: after) 0 out) := by
  have hext : ∀ item : OliveType, ∀ out : List UInt8, out <+: pushItem tables visiting out item :=
    fun item out => encode_extends visiting item out
  have hascii : ∀ item ∈ before, ∀ out, Ascii out → Ascii (pushItem tables visiting out item) :=
    fun item hmem out hout => (hbefore item hmem).ascii visiting hv out hout
  obtain ⟨hmid, hmidLength, hmidPrefix, hextends⟩ := place_of_first hext hascii hout hp
  have hxLength : (encodeDescriptor tables visiting x _).length ≤ _ := hextends.length_le
  have hx' := hx _ hmid (hlow.mono hmidLength) desc ((emitted_extends hextends).trans hp)
    zero
  refine hx'.imp (fun h0 => hextends.subset h0) ?_
  rintro ⟨w, hw⟩
  refine ⟨w, fun depth hdepth part hpart => ?_⟩
  refine @wrong_at out _ (pushItem tables visiting) before after x out.length
    (before.foldl (pushItem tables visiting) out) α _ _ (fun item _ => hext item) hascii ?_ _ 0
    (by simp) hout (Nat.le_refl _) List.prefix_rfl ?_
  · intro item hmem j out' hout' hbase hpush
    have hle : (encodeDescriptor tables visiting item out').length ≤ _ := hpush.length_le
    have hmidLe := ((hext x _).trans hextends).length_le
    have hreads := @Fits.reads tables visited item desc (hbefore item hmem) visiting hv out' hout'
      (hpush.trans hmidPrefix)
    refine ⟨(visitPart_reads fmtVal zero depth (part j) (hascii item hmem out' hout')
      (hpush.trans hmidPrefix) hreads).1, ?_⟩
    exact visitPart_ends fmtVal zero depth (part j) (hascii item hmem out' hout') hreads
      (by omega)
  · rw [Nat.zero_add, hpart]
    exact hw depth (by omega)

theorem spoils_tuple {items : List OliveType}
    (harm : descriptorArm tables visiting ty = .tuple items) (hv : Visits visiting visited)
    (hspoils : ∀ item ∈ items, ¬Fits tables visited item → Spoils tables visiting item)
    (hbad : ¬(items.length ≤ 126 ∧ ∀ item ∈ items, Fits tables visited item)) :
    Spoils tables visiting ty := by
  intro out hout hlow desc hp α zero
  have henc : encodeDescriptor tables visiting ty out = items.foldl (pushItem tables visiting)
      (out ++ [10] ++ [(items.length + 1).toUInt8]) := by
    rw [encode_tuple harm, List.append_assoc]
    rfl
  have hext : ∀ item : OliveType, ∀ out : List UInt8, out <+: pushItem tables visiting out item :=
    fun item out => encode_extends visiting item out
  have hhead : Ascii (out ++ [10]) := hout.append (ascii_singleton (by decide))
  have hheadLength : (out ++ [10]).length = out.length + 1 := by simp
  have hbegin : out ++ [10] ++ [(items.length + 1).toUInt8] <+: encodeDescriptor tables visiting ty
      out := henc ▸ foldl_extends (fun item _ => hext item) _
  have hbeginLength : (out ++ [10] ++ [(items.length + 1).toUInt8]).length = out.length + 2 := by simp
  have hbeginPrefix := (emitted_extends hbegin).trans hp
  have hlength := hbegin.length_le
  have hnode : ∀ (depth : Nat) (v : Value α), Wrong
      (walkTuple fmtVal desc zero (walk fmtVal desc zero (depth + 2)) v (out ++ [10]).length)
      (note (.count (posAfter (out ++ [10])) items.length)
        (forTypes (expectedItem fmtVal tables zero (expected fmtVal tables zero (depth + 2)) visiting v)
          (pushItem tables visiting) items 0 (out ++ [10] ++ [(items.length + 1).toUInt8]))) →
      Wrong (walk fmtVal desc zero (depth + 3) v out.length)
        (expected fmtVal tables zero (depth + 3) v visiting ty out) := by
    intro depth v h
    refine wrong_of_node harm hout hp ?_ h
    rw [expectedNode, harm, List.append_assoc]
    rfl
  by_cases hcount : items.length ≤ 126
  · have hitems : ¬∀ item ∈ items, Fits tables visited item := fun h => hbad ⟨hcount, h⟩
    obtain ⟨before, x, after, rfl, hbefore, hx⟩ := exists_first hitems
    have hascii : Ascii (out ++ [10] ++ [((before ++ x :: after).length + 1).toUInt8]) :=
      hhead.append (ascii_count (by omega))
    have hrest := @spoils_items tables visiting visited desc _ before after x hv hbefore
      (hspoils x (by simp) hx) hascii (hlow.mono (by omega)) (henc ▸ hp) α zero
    rw [← henc] at hrest
    refine hrest.imp_right ?_
    rintro ⟨w, hw⟩
    refine ⟨.items (onlyPart before.length w zero), fun depth hdepth => ?_⟩
    obtain ⟨depth, rfl⟩ : ∃ least, depth = least + 3 := ⟨depth - 3, by omega⟩
    refine hnode _ _ ?_
    rw [emitted_of_ascii hascii] at hbeginPrefix
    rw [walkTuple, readCounted_of_extends (by omega) hbeginPrefix, posAfter_of_ascii hhead]
    exact (hw (depth + 2) (by omega) _ (fmt_onlyPart _ w)).note _
  · refine .inr ⟨.word zero, fun depth hdepth => ?_⟩
    obtain ⟨depth, rfl⟩ : ∃ least, depth = least + 3 := ⟨depth - 3, by omega⟩
    refine hnode _ _ ?_
    rw [posAfter_of_ascii hhead]
    refine wrong_count (by decide) (by decide) (by omega) hhead hbeginPrefix ?_ ?_
    · intro m pos hm
      exact forRange_starts hm (visitPart_starts (fmt_part _ _) fun part => walk_starts _ _ _)
    · refine forTypes_begins (by omega) fun item => ?_
      refine visitPart_begins (fmt_part _ _) fun part => ?_
      exact expected_begins hhead (List.prefix_append _ _) (hlow.mono (by omega))

/-- A name or count that does not fit, before what `next` reads. -/
theorem spoils_head {name : String} {n : Nat} {α : Type} {next : Nat → Nat → Walked α} {u : Walked α}
    (hbad : ¬(FitsName name ∧ n ≤ 114)) (hout : Ascii out) (hp : emitted (pushHead out name n) <+: desc)
    (hnext : ∀ m pos, 0 < m → Starts (next m pos) pos)
    (hu : FitsName name → 114 < n →
      Begins u (posAfter (pushHead out name n)) (pushLenPrefixed out name).length) :
    0 ∈ pushLenPrefixed out name ∨
      Wrong (readName desc out.length fun pos => readCounted desc 13 pos next)
        (note (.name out.length (nameLength name))
          (note (.count (posAfter (pushLenPrefixed out name)) n) u)) := by
  have hnamePrefix : emitted (pushLenPrefixed out name) <+: desc :=
    (emitted_extends (List.prefix_append _ _)).trans hp
  by_cases hname : FitsName name
  · right
    have hcount : 114 < n := by
      by_contra hle
      exact hbad ⟨hname, by omega⟩
    have hascii := hname.ascii_push hout
    rw [emitted_of_ascii hascii] at hnamePrefix
    rw [readName_of_extends hname hnamePrefix, posAfter_of_ascii hascii]
    exact (wrong_count (by decide) (by decide) (by omega) hascii hp hnext (hu hname hcount)).note _
  · exact wrong_name hname hout hnamePrefix (fun pos => readCounted_starts pos) begins_note

theorem spoils_field {f : String × OliveType} (hbad : ¬(FitsName f.1 ∧ Fits tables visited f.2))
    (hspoils : ¬Fits tables visited f.2 → Spoils tables visiting f.2) (hout : Ascii out)
    (hlow : StartedBy visiting out.length) (hp : emitted (pushField tables visiting out f) <+: desc)
    {α : Type} (zero : α) :
    0 ∈ pushField tables visiting out f ∨ ∃ w : Value α, ∀ depth,
      (pushField tables visiting out f).length + 1 ≤ out.length + depth →
      ∀ shared v i, fmtVal.part? zero v i = some w →
        Wrong (walkField fmtVal desc zero (walk fmtVal desc zero depth) shared v i out.length)
          (expectedField fmtVal tables zero (expected fmtVal tables zero depth) visiting shared v i f
            out) := by
  have hextends := @encode_extends tables visiting f.2 (pushLenPrefixed out f.1)
  have hnamePrefix := (emitted_extends hextends).trans hp
  have hnameLength := (pushLenPrefixed_extends out f.1).length_le
  have hgrows := @encode_length tables visiting f.2 (pushLenPrefixed out f.1)
  have hfield : (pushField tables visiting out f).length =
    (encodeDescriptor tables visiting f.2 (pushLenPrefixed out f.1)).length := rfl
  by_cases hname : FitsName f.1
  · have hascii := hname.ascii_push hout
    have hvalue := hspoils (fun h => hbad ⟨hname, h⟩) _ hascii (hlow.mono hnameLength) desc hp zero
    refine hvalue.imp_right ?_
    rintro ⟨w, hw⟩
    refine ⟨w, fun depth hdepth shared v i hpart => ?_⟩
    rw [emitted_of_ascii hascii] at hnamePrefix
    rw [walkField, readName_of_extends hname hnamePrefix, expectedField, posAfter_of_ascii hout,
      fmt_field, hpart]
    exact (hw depth (by omega)).note _
  · have hstarts : ∀ depth shared v i pos, Starts (visitPart (fmtVal.field? zero shared v i)
        (fun part => walk fmtVal desc zero depth part pos) (skip desc pos)) pos := by
      intro depth shared v i pos
      rw [fmt_field]
      exact visitPart_starts (fmt_part v i) fun part => walk_starts _ _ _
    have hbegins : ∀ depth shared v i, Begins (visitPart (fmtVal.field? zero shared v i)
        (fun part => expected fmtVal tables zero (depth + 2) part visiting f.2
          (pushLenPrefixed out f.1))
        (some (posAfter (pushField tables visiting out f))))
        (posAfter (pushLenPrefixed out f.1)) out.length := by
      intro depth shared v i
      rw [fmt_field]
      exact visitPart_begins (fmt_part v i) fun part =>
        expected_begins hout (pushLenPrefixed_extends out f.1) hlow
    by_cases hzero : 0 ∈ pushLenPrefixed out f.1
    · exact .inl (hextends.subset hzero)
    · refine .inr ⟨.word zero, fun depth hdepth shared v i _ => ?_⟩
      obtain ⟨depth, rfl⟩ : ∃ least, depth = least + 2 := ⟨depth - 2, by omega⟩
      have hwrong := wrong_name hname hout hnamePrefix (hstarts (depth + 2) shared v i)
        (hbegins depth shared v i)
      rw [expectedField, posAfter_of_ascii hout]
      exact hwrong.resolve_left hzero

theorem spoils_struct {tag : UInt8} {name : String} {fields : List (String × OliveType)}
    (harm : descriptorArm tables visiting ty = .struct tag name fields) (hv : Visits visiting visited)
    (hspoils : ∀ start, ∀ f ∈ fields, ¬Fits tables (name :: visited) f.2 →
      Spoils tables (visiting.insert name start) f.2)
    (hbad : ¬((FitsName name ∧ fields.length ≤ 114) ∧
      ∀ f ∈ fields, FitsName f.1 ∧ Fits tables (name :: visited) f.2)) :
    Spoils tables visiting ty := by
  intro out hout hlow desc hp α zero
  have htag := @descriptorArm_tagged tables visiting ty
  rw [harm] at htag
  have henc := @encode_struct tables visiting ty out tag name fields harm
  have hv' := hv.insert name out.length
  have hlow' := hlow.insert name
  have hext : ∀ (f : String × OliveType) out',
      out' <+: pushField tables (visiting.insert name out.length) out' f :=
    fun f out' => pushField_extends _ out' f
  have hhead : Ascii (out ++ [tag]) := hout.append (ascii_singleton (tag_ascii harm))
  have hpos : (out ++ [tag]).length = out.length + 1 := by simp
  have hbegin : pushHead (out ++ [tag]) name fields.length <+: encodeDescriptor tables visiting ty out :=
    henc ▸ foldl_extends (fun f _ => hext f) _
  have hbeginPrefix := (emitted_extends hbegin).trans hp
  have hnameLength := (pushLenPrefixed_extends (out ++ [tag]) name).length_le
  have hbeginLength : (pushHead (out ++ [tag]) name fields.length).length =
      (pushLenPrefixed (out ++ [tag]) name).length + 1 := by simp [pushHead]
  have hlength := hbegin.length_le
  have hnode : ∀ (depth : Nat) (v : Value α),
      Wrong (walkStruct fmtVal desc zero (walk fmtVal desc zero (depth + 2)) (decide (tag = 16)) v
        (out ++ [tag]).length)
        (note (.name (posAfter (out ++ [tag])) (nameLength name))
          (note (.count (posAfter (pushLenPrefixed (out ++ [tag]) name)) fields.length)
            (forTypes (expectedField fmtVal tables zero (expected fmtVal tables zero (depth + 2))
              (visiting.insert name out.length) (decide (tag = 16)) v)
              (pushField tables (visiting.insert name out.length)) fields 0
              (pushHead (out ++ [tag]) name fields.length)))) →
      Wrong (walk fmtVal desc zero (depth + 3) v out.length)
        (expected fmtVal tables zero (depth + 3) v visiting ty out) := by
    intro depth v h
    refine wrong_of_node harm hout hp (by rw [expectedNode, harm]; rfl) ?_
    have hwalk : walkNode fmtVal desc zero (walk fmtVal desc zero (depth + 2)) v tag
        (out ++ [tag]).length = walkStruct fmtVal desc zero (walk fmtVal desc zero (depth + 2))
          (decide (tag = 16)) v (out ++ [tag]).length := by
      rcases htag with rfl | rfl <;> rfl
    show Wrong (walkNode fmtVal desc zero _ v tag (out ++ [tag]).length) _
    rw [hwalk]
    exact h
  by_cases hheadFits : FitsName name ∧ fields.length ≤ 114
  · obtain ⟨hname, hcount⟩ := hheadFits
    have hfields : ¬∀ f ∈ fields, FitsName f.1 ∧ Fits tables (name :: visited) f.2 :=
      fun h => hbad ⟨⟨hname, hcount⟩, h⟩
    obtain ⟨before, f, after, rfl, hbefore, hf⟩ := exists_first hfields
    have hpush : ∀ g ∈ before, ∀ out', Ascii out' →
        Ascii (pushField tables (visiting.insert name out.length) out' g) := by
      intro g hg out' hout'
      exact (hbefore g hg).2.ascii _ hv' _ ((hbefore g hg).1.ascii_push hout')
    have hascii := hname.ascii_head hcount hhead
    obtain ⟨hmid, hmidLength, hmidPrefix, hextends⟩ := place_of_first hext hpush hascii (henc ▸ hp)
    have hfLength := hextends.length_le
    have hfield := @spoils_field tables _ _ desc _ f hf (hspoils out.length f (by simp)) hmid
      (hlow'.mono (by omega)) ((emitted_extends hextends).trans (henc ▸ hp)) α zero
    rw [← henc] at hextends hfLength
    refine hfield.imp (fun h0 => hextends.subset h0) ?_
    rintro ⟨w, hw⟩
    refine ⟨.items (onlyPart before.length w zero), fun depth hdepth => ?_⟩
    obtain ⟨depth, rfl⟩ : ∃ least, depth = least + 3 := ⟨depth - 3, by omega⟩
    refine hnode _ _ ?_
    rw [emitted_of_ascii hascii] at hbeginPrefix
    rw [walkStruct, readHead_of_extends hname hcount hbeginPrefix, posAfter_of_ascii hhead,
      posAfter_of_ascii (hname.ascii_push hhead)]
    refine Wrong.note (Wrong.note ?_ _) _
    refine @wrong_at _ _ _ before after f (out.length + 1) _ α _ _ (fun g _ => hext g) hpush ?_ _ 0
      (by simp) hascii (by omega) List.prefix_rfl ?_
    · intro g hg i out' hout' hbase hpush'
      have hle := hpush'.length_le
      have hmidGrows := ((hext f _).trans hextends).length_le
      have hgPrefix := hpush'.trans hmidPrefix
      have hreads := @Fits.reads tables _ g.2 desc (hbefore g hg).2 _ hv' _
        ((hbefore g hg).1.ascii_push hout') hgPrefix
      refine ⟨(field_reads fmtVal zero (depth + 2) _ _ i (hbefore g hg).1 hout' (hpush g hg out' hout')
        hgPrefix hreads).1, ?_⟩
      exact field_ends fmtVal zero (depth + 2) _ _ i (hpush g hg out' hout') hreads (by omega)
    · exact hw (depth + 2) (by omega) _ _ _ (by rw [Nat.zero_add]; exact fmt_onlyPart _ w)
  · by_cases hzero : 0 ∈ pushLenPrefixed (out ++ [tag]) name
    · exact .inl (hbegin.subset (List.mem_append_left _ hzero))
    · refine .inr ⟨.word zero, fun depth hdepth => ?_⟩
      obtain ⟨depth, rfl⟩ : ∃ least, depth = least + 3 := ⟨depth - 3, by omega⟩
      refine hnode _ _ ?_
      rw [walkStruct, posAfter_of_ascii hhead]
      refine (spoils_head hheadFits hhead hbeginPrefix ?_ ?_).resolve_left hzero
      · exact fun m pos hm => forRange_starts hm (readName_starts pos)
      · exact fun _ hcount => forTypes_begins (by omega) fun f => begins_note

theorem spoils_variant {variant : String × List OliveType} (hv : Visits visiting visited)
    (hbad : ¬((FitsName variant.1 ∧ variant.2.length ≤ 114) ∧
      ∀ item ∈ variant.2, Fits tables visited item))
    (hspoils : ∀ item ∈ variant.2, ¬Fits tables visited item → Spoils tables visiting item)
    (hout : Ascii out) (hlow : StartedBy visiting out.length)
    (hp : emitted (pushVariant tables visiting out variant) <+: desc) {α : Type} (zero : α) :
    0 ∈ pushVariant tables visiting out variant ∨ ∃ n, ∃ w : Value α, ∀ depth,
      (pushVariant tables visiting out variant).length + 1 ≤ out.length + depth → ∀ i,
      Wrong (walkVariant fmtVal desc zero (walk fmtVal desc zero depth)
          (.variant i (onlyPart n w zero)) i out.length)
        (expectedVariant fmtVal tables zero (expected fmtVal tables zero depth) visiting
          (.variant i (onlyPart n w zero)) i variant out) := by
  have hext : ∀ item : OliveType, ∀ out : List UInt8, out <+: pushItem tables visiting out item :=
    fun item out => encode_extends visiting item out
  have hbegin : pushHead out variant.1 variant.2.length <+: pushVariant tables visiting out variant :=
    foldl_extends (fun item _ => hext item) _
  have hbeginPrefix := (emitted_extends hbegin).trans hp
  have hlength := hbegin.length_le
  have hnameLength := (pushLenPrefixed_extends out variant.1).length_le
  have hbeginLength : (pushHead out variant.1 variant.2.length).length =
      (pushLenPrefixed out variant.1).length + 1 := by simp [pushHead]
  by_cases hhead : FitsName variant.1 ∧ variant.2.length ≤ 114
  · obtain ⟨hname, hcount⟩ := hhead
    have hitems : ¬∀ item ∈ variant.2, Fits tables visited item := fun h => hbad ⟨⟨hname, hcount⟩, h⟩
    obtain ⟨before, x, after, hlist, hbefore, hx⟩ := exists_first hitems
    have hascii := hname.ascii_head hcount hout
    have hpush : pushVariant tables visiting out variant = (before ++ x :: after).foldl
        (pushItem tables visiting) (pushHead out variant.1 variant.2.length) := by
      rw [pushVariant, hlist]
    have hrest := @spoils_items tables visiting visited desc _ before after x hv hbefore
      (hspoils x (by rw [hlist]; simp) hx) hascii (hlow.mono (by omega)) (hpush ▸ hp) α zero
    rw [← hpush] at hrest
    refine hrest.imp_right ?_
    rintro ⟨w, hw⟩
    refine ⟨before.length, w, fun depth hdepth i => ?_⟩
    rw [emitted_of_ascii hascii] at hbeginPrefix
    rw [walkVariant, readHead_of_extends hname hcount hbeginPrefix, expectedVariant,
      posAfter_of_ascii hout, posAfter_of_ascii (hname.ascii_push hout)]
    rw [← hlist] at hw
    exact ((hw depth (by omega) _ (fmt_onlyPayload i _ w)).note _).note _
  · by_cases hzero : 0 ∈ pushLenPrefixed out variant.1
    · exact .inl (hbegin.subset (List.mem_append_left _ hzero))
    · refine .inr ⟨0, .word zero, fun depth hdepth i => ?_⟩
      obtain ⟨depth, rfl⟩ : ∃ least, depth = least + 2 := ⟨depth - 2, by omega⟩
      rw [walkVariant, expectedVariant, posAfter_of_ascii hout]
      refine (spoils_head hhead hout hbeginPrefix ?_ ?_).resolve_left hzero
      · intro m pos hm
        exact forRange_starts hm (visitPart_starts (fmt_payload i _ _) fun part => walk_starts _ _ _)
      · intro hname hcount
        refine forTypes_begins (by omega) fun item => ?_
        refine visitPart_begins (fmt_payload i _ _) fun part => ?_
        exact expected_begins (hname.ascii_push hout) (List.prefix_append _ _) (hlow.mono hnameLength)

theorem spoils_enum {name : String} {variants : List (String × List OliveType)}
    (harm : descriptorArm tables visiting ty = .enum name variants) (hv : Visits visiting visited)
    (hspoils : ∀ start, ∀ variant ∈ variants, ∀ item ∈ variant.2, ¬Fits tables (name :: visited) item →
      Spoils tables (visiting.insert name start) item)
    (hbad : ¬((FitsName name ∧ variants.length ≤ 114) ∧ ∀ variant ∈ variants,
      (FitsName variant.1 ∧ variant.2.length ≤ 114) ∧
        ∀ item ∈ variant.2, Fits tables (name :: visited) item)) :
    Spoils tables visiting ty := by
  intro out hout hlow desc hp α zero
  have henc := @encode_enum tables visiting ty out name variants harm
  have hv' := hv.insert name out.length
  have hlow' := hlow.insert name
  have hext : ∀ (variant : String × List OliveType) out',
      out' <+: pushVariant tables (visiting.insert name out.length) out' variant :=
    fun variant out' => pushVariant_extends _ out' variant
  have hhead : Ascii (out ++ [13]) := hout.append (ascii_singleton (by decide))
  have hpos : (out ++ [13]).length = out.length + 1 := by simp
  have hbegin : pushHead (out ++ [13]) name variants.length <+: encodeDescriptor tables visiting ty
      out := henc ▸ foldl_extends (fun variant _ => hext variant) _
  have hbeginPrefix := (emitted_extends hbegin).trans hp
  have hnameLength := (pushLenPrefixed_extends (out ++ [13]) name).length_le
  have hbeginLength : (pushHead (out ++ [13]) name variants.length).length =
      (pushLenPrefixed (out ++ [13]) name).length + 1 := by simp [pushHead]
  have hlength := hbegin.length_le
  have hnode : ∀ (depth : Nat) (v : Value α),
      Wrong (walkEnum fmtVal desc zero (walk fmtVal desc zero (depth + 2)) v (out ++ [13]).length)
        (note (.name (posAfter (out ++ [13])) (nameLength name))
          (note (.count (posAfter (pushLenPrefixed (out ++ [13]) name)) variants.length)
            (forTypes (expectedVariant fmtVal tables zero (expected fmtVal tables zero (depth + 2))
              (visiting.insert name out.length) v)
              (pushVariant tables (visiting.insert name out.length)) variants 0
              (pushHead (out ++ [13]) name variants.length)))) →
      Wrong (walk fmtVal desc zero (depth + 3) v out.length)
        (expected fmtVal tables zero (depth + 3) v visiting ty out) := by
    intro depth v h
    refine wrong_of_node harm hout hp ?_ h
    rw [expectedNode, harm]
    rfl
  by_cases hheadFits : FitsName name ∧ variants.length ≤ 114
  · obtain ⟨hname, hcount⟩ := hheadFits
    have hvariants : ¬∀ variant ∈ variants, (FitsName variant.1 ∧ variant.2.length ≤ 114) ∧
        ∀ item ∈ variant.2, Fits tables (name :: visited) item :=
      fun h => hbad ⟨⟨hname, hcount⟩, h⟩
    obtain ⟨before, variant, after, rfl, hbefore, hvariant⟩ := exists_first hvariants
    have hitem : ∀ u ∈ before, ∀ item ∈ u.2, ∀ out', Ascii out' →
        Ascii (pushItem tables (visiting.insert name out.length) out' item) :=
      fun u hu item hmem out' hout' => ((hbefore u hu).2 item hmem).ascii _ hv' _ hout'
    have hpush : ∀ u ∈ before, ∀ out', Ascii out' →
        Ascii (pushVariant tables (visiting.insert name out.length) out' u) := by
      intro u hu out' hout'
      obtain ⟨huname, hucount⟩ := (hbefore u hu).1
      exact foldl_ascii (hitem u hu) (huname.ascii_head hucount hout')
    have hascii := hname.ascii_head hcount hhead
    obtain ⟨hmid, hmidLength, hmidPrefix, hextends⟩ := place_of_first hext hpush hascii (henc ▸ hp)
    have hvariantLength := hextends.length_le
    have hrest := @spoils_variant tables _ _ desc _ variant hv' hvariant
      (hspoils out.length variant (by simp)) hmid (hlow'.mono (by omega))
      ((emitted_extends hextends).trans (henc ▸ hp)) α zero
    rw [← henc] at hextends hvariantLength
    refine hrest.imp (fun h0 => hextends.subset h0) ?_
    rintro ⟨n, w, hw⟩
    refine ⟨.variant before.length (onlyPart n w zero), fun depth hdepth => ?_⟩
    obtain ⟨depth, rfl⟩ : ∃ least, depth = least + 3 := ⟨depth - 3, by omega⟩
    refine hnode _ _ ?_
    rw [emitted_of_ascii hascii] at hbeginPrefix
    rw [walkEnum, readHead_of_extends hname hcount hbeginPrefix, posAfter_of_ascii hhead,
      posAfter_of_ascii (hname.ascii_push hhead)]
    refine Wrong.note (Wrong.note ?_ _) _
    refine @wrong_at _ _ _ before after variant (out.length + 1) _ α _ _ (fun u _ => hext u) hpush ?_ _ 0
      (by simp) hascii (by omega) List.prefix_rfl ?_
    · intro u hu i out' hout' hbase hpush'
      obtain ⟨⟨huname, hucount⟩, hupayloads⟩ := hbefore u hu
      have hle := hpush'.length_le
      have hmidGrows := ((hext variant _).trans hextends).length_le
      have hreads : ∀ item ∈ u.2, ∀ out', Ascii out' →
          pushItem tables (visiting.insert name out.length) out' item <+: desc →
          ReadsBack tables desc (visiting.insert name out.length) item out' :=
        fun item hmem out' hout' hp' => Fits.reads (hupayloads item hmem) _ hv' _ hout' hp'
      refine ⟨(variant_reads fmtVal zero (depth + 2) _ i huname hucount hout' (hpush'.trans hmidPrefix)
        (hitem u hu) hreads).1, ?_⟩
      exact variant_ends fmtVal zero (depth + 2) _ i huname hucount hout' (hpush'.trans hmidPrefix)
        (hitem u hu) hreads (by omega)
    · rw [Nat.zero_add]
      exact hw (depth + 2) (by omega) _
  · by_cases hzero : 0 ∈ pushLenPrefixed (out ++ [13]) name
    · exact .inl (hbegin.subset (List.mem_append_left _ hzero))
    · refine .inr ⟨.word zero, fun depth hdepth => ?_⟩
      obtain ⟨depth, rfl⟩ : ∃ least, depth = least + 3 := ⟨depth - 3, by omega⟩
      refine hnode _ _ ?_
      rw [walkEnum, posAfter_of_ascii hhead]
      refine (spoils_head hheadFits hhead hbeginPrefix ?_ ?_).resolve_left hzero
      · exact fun m pos hm => forRange_starts hm (readName_starts pos)
      · exact fun _ hcount => forTypes_begins (by omega) fun variant => begins_note

theorem armIn_of_visits {arm : DescriptorArm} (hv : Visits visiting visited)
    (h : descriptorArm tables visiting ty = arm) (hne : ∀ target, arm ≠ .backref target) :
    armIn tables visited ty = arm := by
  rcases arm_of_armIn hv ty with heq | ⟨target, target', hback, -⟩
  · rw [← heq, h]
  · exact absurd (h.symm.trans hback) (hne target)

/-- A type that does not fit goes wrong wherever its descriptor stands. -/
theorem spoils_of_not_fits (visiting : FxHashMap String Nat) (ty : OliveType) :
    ∀ visited, Visits visiting visited → ¬Fits tables visited ty → Spoils tables visiting ty := by
  refine @descriptor_induction tables (fun visiting ty => ∀ visited, Visits visiting visited →
    ¬Fits tables visited ty → Spoils tables visiting ty) ?_ visiting ty
  intro visiting ty ihItem ihName visited hv hbad
  have hdesc := @descriptorArm_descends tables visiting ty
  cases harm : descriptorArm tables visiting ty with
  | leaf tag => exact absurd (.leaf (armIn_of_visits hv harm (by simp))) hbad
  | backref target => exact spoils_backref harm
  | seq tag item =>
    rw [harm] at hdesc
    refine spoils_seq harm (ihItem item hdesc visited hv fun hitem => hbad ?_)
    exact .seq (armIn_of_visits hv harm (by simp)) hitem
  | dict key value =>
    rw [harm] at hdesc
    refine spoils_dict harm hv ?_
    by_cases hkey : Fits tables visited key
    · refine .inr ⟨hkey, ihItem value hdesc.2 visited hv fun hvalue => hbad ?_⟩
      exact .dict (armIn_of_visits hv harm (by simp)) hkey hvalue
    · exact .inl (ihItem key hdesc.1 visited hv hkey)
  | tuple items =>
    rw [harm] at hdesc
    refine spoils_tuple harm hv (fun item hmem => ihItem item (hdesc item hmem) visited hv) ?_
    rintro ⟨hcount, hitems⟩
    exact hbad (.tuple (armIn_of_visits hv harm (by simp)) hcount hitems)
  | struct tag name fields =>
    rw [harm] at hdesc
    refine spoils_struct harm hv ?_ ?_
    · exact fun start f _ => ihName name start f.2 hdesc (name :: visited) (hv.insert name start)
    · rintro ⟨⟨hname, hcount⟩, hfields⟩
      exact hbad (.struct (armIn_of_visits hv harm (by simp)) hname hcount
        (fun f hf => (hfields f hf).1) fun f hf => (hfields f hf).2)
  | «enum» name variants =>
    rw [harm] at hdesc
    refine spoils_enum harm hv ?_ ?_
    · exact fun start _ _ item _ =>
        ihName name start item hdesc (name :: visited) (hv.insert name start)
    · rintro ⟨⟨hname, hcount⟩, hvariants⟩
      exact hbad (.enum (armIn_of_visits hv harm (by simp)) hname hcount
        (fun variant hmem => (hvariants variant hmem).1) fun variant hmem => (hvariants variant hmem).2)

end Nodes

theorem zero_mem_emitted (h : 0 ∈ out) : 0 ∈ emitted out :=
  List.mem_flatMap.mpr ⟨0, h, by decide⟩

theorem descriptor_in_data (tables : TypeTables) (ty : OliveType) :
    (typeDescriptor tables ty).toUTF8.data.toList <+: literalData (typeDescriptor tables ty) := by
  rw [literalData, List.append_assoc]
  exact List.prefix_append _ _

/-- Exactly the types that fit have descriptors that are read the way they were written. -/
theorem consistent_iff_fits (tables : TypeTables) (ty : OliveType) :
    Consistent tables ty ↔ Fits tables [] ty := by
  have hdata := descriptor_in_data tables ty
  constructor
  · intro hconsistent
    by_contra hbad
    have hspoils := spoils_of_not_fits .empty ty [] visits_empty hbad [] (by simp [Ascii])
      (by simp [StartedBy]) (literalData (typeDescriptor tables ty))
      (by rw [← typeDescriptor_bytes]; exact hdata) ()
    rcases hspoils with hzero | ⟨v, hv⟩
    · have hmem := zero_mem_emitted hzero
      rw [← typeDescriptor_bytes] at hmem
      exact hconsistent.nonzero 0 hmem rfl
    · -- deep enough for `fmt` to come to an end, and to the fault
      have hfmt : fmtVal ∈ walkers := by simp [walkers]
      obtain ⟨least, hleast⟩ := hconsistent.ends () fmtVal hfmt v
      have hwrong := hv (max least ((encodeDescriptor tables .empty ty []).length + 1))
        (by rw [List.length_nil]; omega)
      exact hwrong.ne_of_ends (hleast _ (Nat.le_max_left _ _)) (hconsistent.walks () fmtVal hfmt _ v)
  · intro hfits
    obtain ⟨rest, hrest, hplain⟩ := hfits.adds .empty visits_empty []
    have hascii := hfits.ascii .empty visits_empty [] (by simp [Ascii])
    have hbytes := typeDescriptor_bytes tables ty
    rw [emitted_of_ascii hascii] at hbytes
    have hp : encodeDescriptor tables .empty ty [] <+: literalData (typeDescriptor tables ty) :=
      hbytes ▸ hdata
    have hreads := hfits.reads .empty visits_empty [] (by simp [Ascii]) hp
    refine ⟨?_, ?_, fun zero walker _ depth v => hreads.walks walker zero depth v, ?_⟩
    · intro b hb
      rw [hbytes, hrest] at hb
      exact (hplain b hb).2
    · rw [hbytes]
      exact hreads.skip hp
    · intro α zero walker _ v
      refine ⟨(encodeDescriptor tables .empty ty []).length, fun depth hdepth => ?_⟩
      have hwalk := hreads.walks walker zero depth v
      have hends := hreads.ends walker zero depth v (by simpa using hdepth)
      rw [hbytes]
      rw [← hwalk] at hends
      exact hends

/-- `struct Node: next: Node | None`. -/
def nodeTables : TypeTables where
  structFields := [("Node", ["next"])]
  fieldTypes := FxHashMap.empty.insert ("Node", "next") (.union [.struct "Node" [] false, .null])
  enumDefs := []
  structHasDrop := fun _ _ => false

/-- The offset of a back-reference to the start of the descriptor is two zero bytes, where text ends at
the first. -/
theorem node_inconsistent : ¬Consistent nodeTables (.struct "Node" [] false) := by
  intro h
  have harm : descriptorArm nodeTables .empty (.struct "Node" [] false) =
      .struct 12 "Node" [("next", .union [.struct "Node" [] false, .null])] := by
    simp [descriptorArm, nodeTables, fieldsOf, FxHashMap.insert]
  have hback : descriptorArm nodeTables (FxHashMap.empty.insert "Node" 0)
      (.union [.struct "Node" [] false, .null]) = .backref 0 := by
    simp [descriptorArm, soleArm, nodeTables, FxHashMap.insert, isTagEncodedUnion, OliveType.isNull,
      OliveType.isStruct, OliveType.isScalar]
  have hzero : 0 ∈ encodeDescriptor nodeTables .empty (.struct "Node" [] false) [] := by
    rw [encode_struct harm, List.foldl_cons, List.foldl_nil, pushField]
    show 0 ∈ encodeDescriptor nodeTables (FxHashMap.empty.insert "Node" 0) _ _
    rw [encode_backref hback]
    simp
  have hmem := zero_mem_emitted hzero
  rw [← typeDescriptor_bytes] at hmem
  exact h.nonzero 0 hmem rfl

end Olive
