import Olive.AsyncSmBody
import Olive.AsyncSmSegments

/-! The instructions around the segments: spilling, reloading, suspending and resuming. -/

namespace Olive

namespace AsyncSm

open Lockstep

/-- A type whose values fill one slot of the frame. -/
def OneSlot (f : MirFunction) : Prop := ∀ l : Nat, slots (tyOf f.locals l) = 1

theorem store_one (frame : Frame) (slot : Nat) (v : Val) :
    store frame slot 1 v = fun s => if s = slot then ⟨v, 0⟩ else frame s := by
  funext s
  unfold store
  by_cases hs : s = slot
  · rw [if_pos hs, if_pos (by omega), hs, Nat.sub_self]
  · rw [if_neg hs, if_neg (by omega)]

theorem load_one (mixed : List Cell → Val) {frame : Frame} {slot : Nat} {v : Val}
    (h : frame slot = ⟨v, 0⟩) : load mixed frame slot 1 = v := by
  simp [load, h]

section Insts

variable {W : Type} {rt : Runtime W} {mixed : List Cell → Val} {f : MirFunction}
  {points : List SmAwaitPoint} {reply : Word → World W → Word × World W} {code : Label → CodeBlock}

variable (rt mixed f reply) in
def execAll (insts : List Inst) (p : PollState W) : Except Fault (PollState W) :=
  insts.foldlM (fun p inst => inst.exec rt mixed f reply p) p

theorem execAll_append {insts rest : List Inst} {p q : PollState W}
    (h : execAll rt mixed f reply insts p = .ok q) :
    execAll rt mixed f reply (insts ++ rest) p = execAll rt mixed f reply rest q := by
  unfold execAll at h ⊢
  rw [List.foldlM_append, h]
  rfl

theorem execAll_cons {inst : Inst} {insts : List Inst} {p q : PollState W}
    (h : inst.exec rt mixed f reply p = .ok q) :
    execAll rt mixed f reply (inst :: insts) p = execAll rt mixed f reply insts q := by
  unfold execAll
  rw [List.foldlM_cons, h]
  rfl

/-- One instruction for each of a range of variables. -/
theorem execAll_range {g : Nat → Inst} {P : Nat → PollState W} {start n : Nat}
    (h : ∀ i < n, (g (start + i)).exec rt mixed f reply (P i) = .ok (P (i + 1))) :
    execAll rt mixed f reply ((List.range' start n).map g) (P 0) = .ok (P n) := by
  induction n with
  | zero => rfl
  | succ n ih =>
    rw [List.range'_1_concat, List.map_append,
      execAll_append (ih fun i hi => h i (Nat.lt_succ_of_lt hi))]
    exact execAll_cons (h n (Nat.lt_succ_self n))

/-- The instructions of a block one after another. -/
theorem runs_insts {label : Label} {idx : Nat} {insts rest : List Inst} {p q : PollState W}
    (hcode : (code label).insts.drop idx = insts ++ rest)
    (h : execAll rt mixed f reply insts p = .ok q) :
    runs (pollStep rt mixed f points reply code) insts.length ⟨label, idx, p⟩ =
      .inl ⟨label, idx + insts.length, q⟩ := by
  induction insts generalizing idx p with
  | nil =>
    obtain rfl := Except.ok.inj h
    rfl
  | cons inst insts ih =>
    have hhead : (code label).insts[idx]? = some inst := by
      rw [← List.head?_drop, hcode]
      rfl
    have htail : (code label).insts.drop (idx + 1) = insts ++ rest := by
      rw [← List.tail_drop, hcode]
      rfl
    cases hexec : inst.exec rt mixed f reply p with
    | error e =>
      unfold execAll at h
      rw [List.foldlM_cons, hexec] at h
      cases h
    | ok p' =>
      rw [execAll_cons hexec] at h
      have hstep : pollStep rt mixed f points reply code ⟨label, idx, p⟩ =
          .inl ⟨label, idx + 1, p'⟩ := by
        simp only [pollStep, hhead, hexec]
      rw [List.length_cons, runs_succ_inl hstep, ih htail h]
      rw [Nat.add_assoc, Nat.add_comm 1]

/-- A whole block, then its exit. -/
theorem reaches_exit (points : List SmAwaitPoint) {label : Label} {idx : Nat} {insts : List Inst} {p q : PollState W}
    (hcode : (code label).insts.drop idx = insts)
    (h : execAll rt mixed f reply insts p = .ok q) :
    ∃ t, runs (pollStep rt mixed f points reply code) insts.length ⟨label, idx, p⟩ = .inl t ∧
      pollStep rt mixed f points reply code t = (code label).exit.take rt mixed points q := by
  have hall : (code label).insts.drop idx = insts ++ [] := by rwa [List.append_nil]
  refine ⟨_, runs_insts hall h, ?_⟩
  have hend : (code label).insts[idx + insts.length]? = none := by
    rw [← hcode, List.getElem?_eq_none_iff, List.length_drop]
    omega
  simp only [pollStep, hend]

/-- The block of a label that ends in a jump. -/
theorem reaches_block {label : Label} {p q : PollState W} {t : PollPoint W}
    (h : execAll rt mixed f reply (code label).insts p = .ok q)
    (hexit : (code label).exit.take rt mixed points q = .inl t) :
    Reaches (pollStep rt mixed f points reply code) ⟨label, 0, p⟩ t := by
  obtain ⟨u, hu, hstep⟩ := reaches_exit points List.drop_zero h
  exact Reaches.tail ⟨_, hu⟩ (hstep.trans hexit)

theorem yields_block {label : Label} {p q : PollState W} {o : PollEnd W}
    (h : execAll rt mixed f reply (code label).insts p = .ok q)
    (hexit : (code label).exit.take rt mixed points q = .inr o) :
    Yields (pollStep rt mixed f points reply code) ⟨label, 0, p⟩ o := by
  obtain ⟨u, hu, hstep⟩ := reaches_exit points List.drop_zero h
  exact yields_iff_last.mpr ⟨u, ⟨_, hu⟩, hstep.trans hexit⟩

/-- The frame keeps the declared locals. -/
def Holds (f : MirFunction) (frame : Frame) (locals : Local → Val) : Prop :=
  ∀ l : Nat, l < f.locals.length → frame (frameOff l) = ⟨locals l, 0⟩

variable (rt mixed reply) in
theorem execAll_reloads (hslots : OneSlot f) (p : PollState W) (start n : Nat) (vals : Local → Val)
    (h : ∀ i < n, p.frame (frameOff (start + i)) = ⟨vals (start + i), 0⟩) :
    execAll rt mixed f reply ((List.range' start n).map .reload) p = .ok (p.setLocals fun l : Nat =>
      if start ≤ l ∧ l < start + n then vals l else p.state.locals l) := by
  let upto (i l : Nat) : Val := if start ≤ l ∧ l < start + i then vals l else p.state.locals l
  have hstart : p.setLocals (upto 0) = p := by
    have hnone : upto 0 = p.state.locals := by
      funext l
      exact if_neg (by omega)
    rw [hnone]
    rfl
  have hsteps : ∀ i < n, (Inst.reload (start + i)).exec rt mixed f reply (p.setLocals (upto i)) =
      .ok (p.setLocals (upto (i + 1))) := by
    intro i hi
    have hset : setLocal (upto i) (start + i) (vals (start + i)) = upto (i + 1) := by
      refine funext fun (l : Nat) => ?_
      unfold setLocal
      by_cases hl : l = start + i
      · rw [if_pos hl, hl]
        exact (if_pos (by omega)).symm
      · rw [if_neg hl]
        exact if_congr (by omega) rfl rfl
    simp only [Inst.exec, hslots (start + i), PollState.setLocals, load_one mixed (h i hi), hset]
  have hall := execAll_range (g := Inst.reload) (P := fun i => p.setLocals (upto i)) hsteps
  rwa [hstart] at hall

variable (rt mixed reply) in
theorem execAll_reload (hslots : OneSlot f) {p : PollState W} {locals : Local → Val}
    (hholds : Holds f p.frame locals) (hp : ∀ l : Nat, f.locals.length ≤ l →
      p.state.locals l = locals l) :
    execAll rt mixed f reply (reloads f) p = .ok (p.setLocals locals) := by
  have h := execAll_reloads rt mixed reply hslots p 0 f.locals.length locals
    fun i hi => by simpa using hholds i hi
  rw [reloads, List.range_eq_range', h]
  refine congrArg (fun locals => Except.ok (p.setLocals locals)) (funext fun l => ?_)
  split
  next => rfl
  next hl => exact hp l (by omega)

variable (rt mixed reply) in
/-- What is spilled is held. -/
theorem execAll_spills (hslots : OneSlot f) (p : PollState W) :
    ∃ frame, execAll rt mixed f reply (spills f) p = .ok { p with frame := frame } ∧
      Holds f frame p.state.locals := by
  let upto (i : Nat) : Frame := fun s =>
    if 2 ≤ s ∧ s < 2 + i then ⟨p.state.locals (s - 2), 0⟩ else p.frame s
  have hstart : upto 0 = p.frame := by
    funext s
    exact if_neg (by omega)
  have hsteps : ∀ i < f.locals.length,
      (Inst.spill (0 + i)).exec rt mixed f reply { p with frame := upto i } =
        .ok { p with frame := upto (i + 1) } := by
    intro i hi
    have hroom : frameOff (0 + i) + 1 ≤ f.locals.length + 2 := by
      unfold frameOff
      omega
    have hset : store (upto i) (frameOff (0 + i)) 1 (p.state.locals (0 + i)) = upto (i + 1) := by
      rw [store_one]
      funext s
      by_cases hs : s = frameOff (0 + i)
      · rw [if_pos hs]
        unfold frameOff at hs
        refine Eq.trans ?_ (if_pos (by omega)).symm
        rw [hs, Nat.add_sub_cancel]
      · rw [if_neg hs]
        unfold frameOff at hs
        exact if_congr (by omega) rfl rfl
    simp only [Inst.exec, storeVar, hslots (0 + i), hroom, if_true, hset]
  have hall := execAll_range (g := Inst.spill) (P := fun i => { p with frame := upto i }) hsteps
  rw [hstart] at hall
  refine ⟨upto f.locals.length, ?_, fun l hl => ?_⟩
  · rwa [spills, List.range_eq_range']
  · refine (if_pos ?_).trans ?_
    · unfold frameOff
      omega
    · rw [frameOff, Nat.add_sub_cancel]

end Insts

section Prefix

variable {W : Type} {rt : Runtime W} {mixed : List Cell → Val} {f : MirFunction}
  {points : List SmAwaitPoint} {reply : Word → World W → Word × World W}

variable (rt mixed f points reply)

/-- Every poll begins with the dispatch on the state. -/
theorem reaches_state (m : Polled W) (w : World W) {k : Word} (hk : m.frame 0 = ⟨.word k, 0⟩) :
    Reaches (pollStep rt mixed f points reply (translateBlock f points)) (m.entry w)
      ⟨if k.toNat ≤ points.length then .state k.toNat else .done, 0, (m.entry w).poll⟩ := by
  have hzero : execAll rt mixed f reply (translateBlock f points .entry).insts (m.entry w).poll =
      .ok (m.entry w).poll := by
    rw [translateBlock, List.range_eq_range']
    refine execAll_range (P := fun _ => (m.entry w).poll) fun i _ => ?_
    have hsame : setLocal (fun _ => Val.word 0) (0 + i) (.word 0) = fun _ => .word 0 :=
      funext fun l => ite_self _
    simp only [Inst.exec, Polled.entry, PollState.setLocals, hsame]
  have hentry : Reaches (pollStep rt mixed f points reply (translateBlock f points)) (m.entry w)
      ⟨.dispatch, 0, (m.entry w).poll⟩ := reaches_block hzero rfl
  refine hentry.trans (reaches_block rfl ?_)
  have hload : load mixed (m.entry w).poll.frame 0 1 = .word k := load_one mixed hk
  simp only [translateBlock, Exit.take, hload, Val.toWord]

/-- The first poll gets to the body with its arguments. -/
theorem reaches_first (hslots : OneSlot f) {p : PollState W} {args : List Val} (w : World W)
    (hp : p.state.locals = fun _ => .word 0) (hargs : args.length = f.argCount)
    (hframe : ∀ i < args.length, p.frame (i + 3) = ⟨args.getD i (.word 0), 0⟩) :
    Reaches (pollStep rt mixed f points reply (translateBlock f points)) ⟨.state 0, 0, p⟩
      ⟨.seg 0 0, 0, p.setLocals (startPoint args w).state.locals⟩ := by
  refine reaches_block ?_ rfl
  have h := execAll_reloads rt mixed reply hslots p 1 f.argCount (startPoint args w).state.locals
    fun i hi => by
      rw [← hargs] at hi
      simpa [frameOff, startPoint, Nat.add_comm 1 i] using hframe i hi
  rw [translateBlock, h]
  refine congrArg (fun locals => Except.ok (p.setLocals locals)) (funext fun l => ?_)
  split
  next => rfl
  next hl =>
    rw [hp]
    by_cases h0 : l = 0
    · simp [startPoint, h0]
    · simp only [startPoint, h0, if_false]
      rw [List.getD_eq_getElem?_getD, List.getElem?_eq_none (by omega)]
      rfl

/-- A resumed poll asks the future. -/
theorem reaches_polled (hslots : OneSlot f) {p : PollState W} {locals : Local → Val} (k : Nat)
    {future : Val} (hholds : Holds f p.frame locals)
    (hp : ∀ l : Nat, f.locals.length ≤ l → p.state.locals l = locals l)
    (hsub : p.frame 1 = ⟨future, 0⟩) :
    Reaches (pollStep rt mixed f points reply (translateBlock f points)) ⟨.state (k + 1), 0, p⟩
      ⟨if (reply future.toWord p.state.world).1 = pollPending then .pend k else .cont k, 0,
        { p with
          state := ⟨locals, (reply future.toWord p.state.world).2, p.state.log⟩
          polled := (reply future.toWord p.state.world).1 }⟩ := by
  have hreload := execAll_reload rt mixed reply hslots hholds hp
  refine reaches_block ?_ ?_ (q := {
    p with
    state := ⟨locals, (reply future.toWord p.state.world).2, p.state.log⟩
    polled := (reply future.toWord p.state.world).1 })
  · rw [translateBlock, execAll_append hreload]
    refine execAll_cons ?_
    simp only [Inst.exec, PollState.setLocals, load_one mixed hsub]
  · rfl

/-- With its result the body goes on after the await. -/
theorem reaches_resumed (hslots : OneSlot f) {p : PollState W} {k : Nat} {ap : SmAwaitPoint}
    (hap : points[k]? = some ap) (hholds : Holds f p.frame p.state.locals) :
    Reaches (pollStep rt mixed f points reply (translateBlock f points)) ⟨.cont k, 0, p⟩
      ⟨.seg ap.bbIdx (resumeSeg points ap k), 0,
        { p.setLocals (setLocal p.state.locals ap.resultLocal (.word p.polled)) with
          trace := p.trace ++ [.awaited p.polled]
          answers := p.answers ++ [(p.polled, p.state.world)] }⟩ := by
  have hreload := execAll_reload rt mixed reply hslots hholds fun _ _ => rfl
  have hblock : translateBlock f points (.cont k) =
      ⟨reloads f ++ [.setResult ap.resultLocal], .jump (.seg ap.bbIdx (resumeSeg points ap k))⟩ := by
    simp only [translateBlock, hap]
  refine reaches_block ?_ ?_ (q := {
    p.setLocals (setLocal p.state.locals ap.resultLocal (.word p.polled)) with
    trace := p.trace ++ [.awaited p.polled]
    answers := p.answers ++ [(p.polled, p.state.world)] })
  · rw [hblock, execAll_append hreload]
    exact execAll_cons rfl
  · rw [hblock]
    rfl

end Prefix

end AsyncSm

end Olive
