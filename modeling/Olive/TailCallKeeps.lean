import Olive.TailCallSound

/-! When self tail calls may jump. -/

namespace Olive

namespace TailCall

open Activation

variable {W : Type} {rt : ActivationRuntime W} {f : MirFunction}

section Types

/-- The types of arguments that a parameter gets as they are passed, by way of a variable of type
`Any`. -/
def stages (signed : Bool) (arg param : ClType) : Bool :=
  match arg, param with
  | .int 64, .int 64 | .int 64, .f64 | .f64, .int 64 | .f64, .f64 => true
  | .int n, .int m => decide (n < 64) && (m == n || m == 64 && !signed)
  | _, _ => false

theorem narrow_back {n : Nat} (hn : n ≤ 64) (x : BitVec n) : (x.setWidth 64).setWidth n = x := by
  rw [BitVec.setWidth_setWidth_of_le x hn, BitVec.setWidth_eq]

/-- The word of the staging variable. -/
def stagedWord : ClValue → ClValue
  | .int _ x => .int 64 (x.setWidth 64)
  | .f64 bits => .int 64 bits
  | v => v

theorem convert_any {src : Source} {w : W} {v : ClValue} {signed : Bool} {param : ClType}
    (h : stages signed v.type param = true) :
    (clType .any).read (convert rt src .any w v) = stagedWord v := by
  cases v with
  | int n x =>
    by_cases hn : n = 64
    · subst hn
      simp [convert, ClType.read, ClValue.type, clType, stagedWord]
    · simp [convert, ClType.read, ClValue.type, clType, stagedWord, hn, isSigned]
  | f64 bits => simp [convert, ClType.read, ClValue.type, clType, stagedWord]
  | f32 bits => cases param with | _ => simp [stages, ClValue.type] at h
  | vector lanes => cases param with | _ => simp [stages, ClValue.type] at h

/-- What the parameter is given then. -/
theorem convert_param {w : W} {ty : OliveType} {v : ClValue} {signed : Bool}
    (h : stages signed v.type (clType ty) = true) :
    convert rt .other ty w (stagedWord v) = Activation.pass rt signed (clType ty) v := by
  have hword : ∀ x : Word, clType ty = .int 64 → convert rt .other ty w (.int 64 x) = .int 64 x := by
    intro x hty
    simp [convert, ClValue.type, hty]
  cases v with
  | f32 bits => cases hty : clType ty with | _ => simp [stages, ClValue.type, hty] at h
  | vector lanes => cases hty : clType ty with | _ => simp [stages, ClValue.type, hty] at h
  | f64 bits =>
    cases hty : clType ty with
    | int m =>
      obtain rfl : m = 64 := by
        by_contra hm
        simp [stages, ClValue.type, hty, hm] at h
      rw [stagedWord, hword bits hty, Activation.pass]
    | f64 => simp [stagedWord, convert, Activation.pass, ClValue.type, hty]
    | f32 => simp [stages, ClValue.type, hty] at h
    | vector => simp [stages, ClValue.type, hty] at h
  | int n x =>
    cases hty : clType ty with
    | f64 =>
      obtain rfl : n = 64 := by
        by_contra hn
        simp [stages, ClValue.type, hty, hn] at h
      simp [stagedWord, convert, Activation.pass, ClValue.type, hty]
    | f32 => simp [stages, ClValue.type, hty] at h
    | vector => simp [stages, ClValue.type, hty] at h
    | int m =>
      by_cases hn : n = 64
      · subst hn
        obtain rfl : m = 64 := by
          by_contra hm
          simp [stages, ClValue.type, hty, hm] at h
        rw [stagedWord, hword _ hty]
        simp [Activation.pass]
      · have hlt : n < 64 ∧ (m = n ∨ m = 64 ∧ signed = false) := by
          simpa [stages, ClValue.type, hty, hn] using h
        obtain ⟨hlt, rfl | ⟨rfl, rfl⟩⟩ := hlt
        · have hback : convert rt .other ty w (.int 64 (x.setWidth 64)) = .int m x := by
            have hne : ¬ 64 = m := fun h => hn h.symm
            simp [convert, ClValue.type, hty, hne, BitVec.signExtend_eq_setWidth_of_le _ hlt.le,
              narrow_back hlt.le]
          rw [stagedWord, hback]
          simp [Activation.pass, hn]
        · rw [stagedWord, hword _ hty]
          simp [Activation.pass, hlt]

theorem staged_of_types {j : Nat} {op : Operand} {w : W} {v : ClValue}
    (h : stages (isSignedOperand f.locals op) v.type (clType (tyOf f.locals (j + 1))) = true) :
    staged rt f j op w v = (clType (tyOf f.locals (j + 1))).read
      (Activation.pass rt (isSignedOperand f.locals op) (clType (tyOf f.locals (j + 1))) v) := by
  rw [staged, convert_any h, convert_param h]

theorem returned_of_types {call : Rvalue} {dst : Local} {op : Operand} {w : W} {v : ClValue}
    (hdst : clType (tyOf f.locals dst) = clType (tyOf f.locals 0))
    (hv : v.type = clType (tyOf f.locals 0)) : returned rt f call dst op w v = v := by
  have hcall : convert rt (source f.locals call) (tyOf f.locals dst) w v = v :=
    if_pos (hv.trans hdst.symm)
  have huse : convert rt (source f.locals (.use op)) (tyOf f.locals 0) w v = v := if_pos hv
  rw [returned, hcall, ClType.read_of_type (hv.trans hdst.symm), huse, ClType.read_of_type hv]

/-- An `f32` comes back from staging without its fraction. -/
theorem staged_f32 {j : Nat} {op : Operand} {w : W} {bits : BitVec 32}
    (hparam : tyOf f.locals (j + 1) = .f32) :
    staged rt f j op w (.f32 bits) =
      .f32 (rt.conversions.sintToF32 64 (rt.conversions.f32ToSint 64 bits)) := by
  simp [staged, hparam, convert, ClType.read, ClValue.type, clType]

/-- The type of an operand's values. -/
def operandType (decls : List LocalDecl) : Operand → ClType
  | .copy l | .move l => clType (tyOf decls l)
  | .const (.float _) => .f64
  | .const _ => .int 64

theorem IsValue.type {op : Operand} {v : ClValue} (h : IsValue rt f.locals op v) :
    v.type = operandType f.locals op := by
  cases op with
  | copy l => exact h
  | move l => exact h
  | const c =>
    obtain rfl : v = constant rt c := h
    cases c with
    | _ => rfl

/-- The types of the function let its self tail calls jump. -/
structure TypedTails (f : MirFunction) : Prop where
  sync : f.isAsync = false
  args : ∀ block ∈ f.basicBlocks, ∀ args, tailCallArgs block f.name f.argCount = some args →
    ∀ j arg, args[j]? = some arg →
      stages (isSignedOperand f.locals arg) (operandType f.locals arg) (clType (tyOf f.locals (j + 1))) = true
  result : ∀ block ∈ f.basicBlocks, ∀ stmt ∈ block.statements, ∀ dst args,
    stmt.kind = .assign dst (.call (.const (.function f.name)) args) →
      clType (tyOf f.locals dst) = clType (tyOf f.locals 0)

theorem TypedTails.allKept (h : TypedTails f) (p : ActPoint W) : AllKept rt f p := by
  intro q dst op args _ hat
  obtain ⟨pre, s, s', span, hb, -, hop, hlen⟩ := hat
  have hmem := List.mem_of_getElem? hb
  refine ⟨h.sync, fun j arg val harg hval => ?_, fun w v hv => ?_⟩
  · refine staged_of_types ?_
    rw [(evalOperands_isValue harg hval).type]
    exact h.args _ hmem args (tailCallArgs_of hop hlen) j arg harg
  · have hstmt : (⟨.assign dst (.call (.const (.function f.name)) args), s⟩ : Statement) ∈
        pre ++ [⟨.assign dst (.call (.const (.function f.name)) args), s⟩, ⟨.assign 0 (.use op), s'⟩] :=
      List.mem_append_right _ List.mem_cons_self
    exact returned_of_types (h.result _ hmem _ hstmt dst args rfl) hv

end Types

/-- Where every self tail call of a run may jump, the function ends as before. -/
theorem tail_calls_keep (hwf : WellFormed f) (hreads : ReadsAssigned f) {vals : List ClValue} {w : W}
    {o : ActOutcome W} (hkept : AllKept rt f (start f vals w)) (h : Ends rt f vals w o) :
    Ends rt (TailCall.run f).1 vals w o := by
  rcases run_rewrites f with ⟨-, hsame⟩ | ⟨hg, -⟩
  · rw [hsame]
    exact h
  · obtain ⟨n, hn⟩ := h
    obtain ⟨m, hm⟩ := follow_run hg hwf hreads n _ _ o
      (linked_start hg.nonempty fun _ _ => rfl) hkept hn
    exact ⟨m + 1, by rw [run_start hg]; exact hm⟩

section Examples

/-- The integer part. -/
def f32Truncated (width : Nat) (bits : BitVec 32) : BitVec width :=
  let exponent := (bits.extractLsb' 23 8).toNat
  let mantissa := (bits.extractLsb' 0 23).toNat + 2 ^ 23
  let size : Nat := if exponent < 127 then 0 else mantissa * 2 ^ (exponent - 127) / 2 ^ 23
  BitVec.ofInt width (if bits.msb then -size else size)

/-- Exact for integers that 24 bits hold. -/
def f32OfInt (width : Nat) (v : BitVec width) : BitVec 32 :=
  let size := v.toInt.natAbs
  let exponent := size.log2
  if size = 0 then 0
  else BitVec.ofNat 32 ((if v.msb then 2 ^ 31 else 0) + (127 + exponent) * 2 ^ 23 +
    (size * 2 ^ 23 / 2 ^ exponent - 2 ^ 23))

/-- Nothing but the conversions of `f32` values. -/
def f32Runtime : ActivationRuntime Unit where
  conversions := ⟨fun _ => 0, fun _ => 0, f32Truncated, fun _ _ => 0, f32OfInt, fun _ _ => 0⟩
  pyToFloat _ _ := 0
  pyToInt _ _ := 0
  address _ := 0
  rvalue _ _ _ := .error .trap
  store _ _ _ := .error .trap
  free _ _ w := w
  stale _ _ _ _ := false

/-- `picks(x, n)` is `x` where `n` is zero, and `picks(arg, 0)` elsewhere. -/
def picks (ty : OliveType) (arg : Local) : MirFunction :=
  plainFunction "picks" 2 [ty, ty, .int, ty]
    [⟨[], plainTerm (.switchInt (.copy 2) [(0, 1)] 2)⟩,
     ⟨[plainStmt (.assign 0 (.use (.copy 1)))], plainTerm .ret⟩,
     ⟨[plainStmt (.assign 3 (.call (.const (.function "picks")) [.copy arg, .const (.int 0)])),
       plainStmt (.assign 0 (.use (.copy 3)))], plainTerm .ret⟩]

variable {ty : OliveType} {arg : Local}

/-- A place reads parameters, or what its block has assigned. -/
theorem picks_reads {bb : BasicBlockId} {idx : Nat} {l : Local} (h : l ∈ (picks ty arg).readsAt bb idx) :
    l = 1 ∨ l = 2 ∨ l = arg ∨ l < 4 ∧ ∃ i stmt, i < idx ∧
      ((picks ty arg).stmtsAt bb)[i]? = some stmt ∧ stmt.dst? = some l := by
  match bb, idx with
  | 0, _ => exact .inr (.inl (List.mem_singleton.mp h))
  | 1, 0 => exact .inl (List.mem_singleton.mp h)
  | 1, idx + 1 =>
    obtain rfl := List.mem_singleton.mp h
    exact .inr (.inr (.inr ⟨by decide, 0, _, Nat.succ_pos idx, rfl, rfl⟩))
  | 2, 0 => exact .inr (.inr (.inl (List.mem_singleton.mp h)))
  | 2, 1 =>
    obtain rfl := List.mem_singleton.mp h
    exact .inr (.inr (.inr ⟨by decide, 0, _, Nat.succ_pos 0, rfl, rfl⟩))
  | 2, idx + 2 =>
    obtain rfl := List.mem_singleton.mp h
    exact .inr (.inr (.inr ⟨by decide, 1, _, Nat.succ_lt_succ (Nat.succ_pos idx), rfl, rfl⟩))
  | _ + 3, _ => cases h

theorem picks_readsAssigned (harg : (picks ty arg).isParam arg) : ReadsAssigned (picks ty arg) := by
  intro bb idx l hl
  rcases picks_reads hl with rfl | rfl | rfl | ⟨-, i, stmt, hi, hs, hdst⟩
  · exact .inl (show 1 ≤ 1 ∧ 1 ≤ 2 by decide)
  · exact .inl (show 1 ≤ 2 ∧ 2 ≤ 2 by decide)
  · exact .inl harg
  · exact .inr fun hu => hu.block hi hs rfl hdst

theorem picks_wellFormed (harg : (picks ty arg).isParam arg) : WellFormed (picks ty arg) where
  params := show 2 < 4 by decide
  reads bb idx l hl := by
    rcases picks_reads hl with rfl | rfl | rfl | ⟨hlt, -⟩
    · exact show 1 < 4 by decide
    · exact show 2 < 4 by decide
    · exact Nat.lt_of_le_of_lt harg.2 (show 2 < 4 by decide)
    · exact hlt
  targets bb target ht := by
    match bb with
    | 0 =>
      rcases List.mem_pair.mp ht with rfl | rfl
      · exact show 1 < 3 by decide
      · exact show 2 < 3 by decide
    | 1 => cases ht
    | 2 => cases ht
    | _ + 3 => cases ht

theorem picks_typedTails : TypedTails (picks .int 2) where
  sync := rfl
  args block hb args hcall := by
    rcases List.mem_cons.mp hb with rfl | hb
    · cases hcall
    rcases List.mem_pair.mp hb with rfl | rfl
    · cases hcall
    · cases hcall
      intro j arg harg
      match j with
      | 0 => cases harg; rfl
      | 1 => cases harg; rfl
      | _ + 2 => cases harg
  result block hb stmt hstmt dst args hk := by
    rcases List.mem_cons.mp hb with rfl | hb
    · cases hstmt
    rcases List.mem_pair.mp hb with rfl | rfl
    · obtain rfl := List.mem_singleton.mp hstmt
      cases hk
    · rcases List.mem_pair.mp hstmt with rfl | rfl
      · cases hk
        rfl
      · cases hk

theorem tail_calls_keep_picks :
    Ends f32Runtime (picks .int 2) [.int 64 5, .int 64 7] () (.ok (.int 64 7, ())) ∧
      Ends f32Runtime (TailCall.run (picks .int 2)).1 [.int 64 5, .int 64 7] () (.ok (.int 64 7, ())) :=
  have hends : Ends f32Runtime (picks .int 2) [.int 64 5, .int 64 7] () (.ok (.int 64 7, ())) := ⟨9, rfl⟩
  ⟨hends, tail_calls_keep (picks_wellFormed ⟨by decide, by decide⟩)
    (picks_readsAssigned ⟨by decide, by decide⟩) (picks_typedTails.allKept _) hends⟩

/-- An `f32` loses its fraction on the way to the next round: `picks(1.5, 1)` is `1.0`. -/
theorem f32_argument_truncated : ¬ ∀ (rt : ActivationRuntime Unit) (f : MirFunction) (vals : List ClValue)
    (w : Unit) (o : ActOutcome Unit), WellFormed f → ReadsAssigned f → Ends rt f vals w o →
    Ends rt (TailCall.run f).1 vals w o := by
  intro h
  have hbefore : Ends f32Runtime (picks .f32 1) [.f32 0x3FC00000, .int 64 1] () (.ok (.f32 0x3FC00000, ())) :=
    ⟨9, rfl⟩
  have hafter : Ends f32Runtime (TailCall.run (picks .f32 1)).1 [.f32 0x3FC00000, .int 64 1] ()
      (.ok (.f32 0x3F800000, ())) := ⟨20, rfl⟩
  have hkept := h f32Runtime (picks .f32 1) _ () _ (picks_wellFormed ⟨by decide, by decide⟩)
    (picks_readsAssigned ⟨by decide, by decide⟩) hbefore
  have hsame := ends_unique hkept hafter
  cases hsame

end Examples

end TailCall

end Olive
