import Olive.DepthFirst
import Olive.LoopUtils

namespace Olive

open FlowGraph UntilStable MeetTree DominatorTree

section Source

variable (f : MirFunction)

/-- The walk up from the two blocks, as the search for where they meet. -/
def intersect? (rpo : List BasicBlockId) (idom : List (Option BasicBlockId)) (fuel : Nat)
    (a b : BasicBlockId) : Option BasicBlockId :=
  meet (fun x => (idom.getD x none).getD 0) (fun x => rpo.idxOf x) fuel a b

def idomStep? (rpo : List BasicBlockId) (fuel : Nat) (state : List (Option BasicBlockId) × Bool)
    (b : BasicBlockId) : Option (List (Option BasicBlockId) × Bool) :=
  match (cfgPreds f b).filter fun p => (state.1.getD p none).isSome with
  | [] => some state
  | first :: rest => do
    let new ← rest.foldlM (intersect? rpo state.1 fuel) first
    if state.1.getD b none = some new then some state else some (state.1.set b (some new), true)

/-- Rounds until one changes nothing; `none` when they, or a walk inside them, do not end within
the fuel. -/
def idomRounds? (rpo : List BasicBlockId) (fuel : Nat) :
    Nat → List (Option BasicBlockId) → Option (List (Option BasicBlockId))
  | 0, _ => none
  | rounds + 1, idom => do
    let state ← rpo.tail.foldlM (idomStep? f rpo fuel) (idom, false)
    if state.2 then idomRounds? rpo fuel rounds state.1 else some state.1

def dominatorsOf? (idom : List (Option BasicBlockId)) : Nat → BasicBlockId →
    Option (List BasicBlockId)
  | 0, _ => none
  | fuel + 1, b =>
    match idom.getD b none with
    | some d => if d ≠ b then (dominatorsOf? idom fuel d).map (b :: ·) else some [b]
    | none => some [b]

/-- The dominators of every block; `none` when some loop does not end within the fuel. -/
def dominators? (fuel : Nat) : Option (List (List BasicBlockId)) := do
  let n := f.basicBlocks.length
  if n = 0 then some []
  else
    let postorder ← postorder? (cfgSuccs f) n fuel [(0, 0)] [0] []
    let rpo := postorder.reverse
    let idom ← idomRounds? f rpo fuel fuel ((List.replicate n none).set 0 (some 0))
    (List.range n).mapM (dominatorsOf? idom fuel)

end Source

def table (idom : List (Option BasicBlockId)) : Table := fun b => idom.getD b none

theorem table_set {idom : List (Option BasicBlockId)} {b : BasicBlockId} (hb : b < idom.length)
    (d : BasicBlockId) : table (idom.set b (some d)) = Function.update (table idom) b (some d) := by
  funext x
  by_cases h : x = b
  · subst h
    rw [Function.update_self, table, List.getD_eq_getElem?_getD, List.getElem?_set_self hb]
    rfl
  · rw [Function.update_of_ne h]
    simp only [table, List.getD_eq_getElem?_getD, List.getElem?_set_ne (Ne.symm h)]

/-- The blocks that control can reach, with the edges between blocks of the function. -/
abbrev flow (f : MirFunction) : Nat → List Nat := inside (cfgSuccs f) f.basicBlocks.length

section Flow

variable {f : MirFunction}

theorem mem_flow {p b : BasicBlockId} :
    b ∈ flow f p ↔ b ∈ f.successors p ∧ b < f.basicBlocks.length := by
  rw [flow, mem_inside, mem_cfgSuccs]

theorem walk_flow {before : List BasicBlockId} {b : BasicBlockId} (hb : b < f.basicBlocks.length) :
    Walk (flow f) before b ↔ Walk f.successors before b := by
  constructor
  · intro h
    induction h with
    | entry => exact .entry
    | step _ hsucc ih =>
      obtain ⟨hmem, -⟩ := mem_flow.mp hsucc
      exact (ih (MirFunction.lt_of_successors hmem)).step hmem
  · intro h
    induction h with
    | entry => exact .entry
    | step _ hsucc ih =>
      exact (ih (MirFunction.lt_of_successors hsucc)).step (mem_flow.mpr ⟨hsucc, hb⟩)

theorem reachable_flow {b : BasicBlockId} (hb : b < f.basicBlocks.length) :
    DominatorTree.Reachable (flow f) b ↔ DominatorTree.Reachable f.successors b :=
  exists_congr fun _ => walk_flow hb

theorem dominates_flow {d b : BasicBlockId} (hb : b < f.basicBlocks.length) :
    DominatorTree.Dominates (flow f) d b ↔ DominatorTree.Dominates f.successors d b :=
  forall_congr' fun _ => imp_congr_left (walk_flow hb)

end Flow

section Rounds

variable {f : MirFunction} {order : List BasicBlockId} {parent : Nat → Nat}
  {idom : List (Option BasicBlockId)} {b : BasicBlockId} {fuel : Nat}

/-- The order that the search found, with a tree of forward edges. -/
structure Ordered (f : MirFunction) (order : List BasicBlockId) (parent : Nat → Nat) : Prop where
  postorder : Postorder (cfgSuccs f) f.basicBlocks.length order
  tree : ForwardTree (flow f) (cfgPreds f) order.reverse.idxOf parent (f.basicBlocks.length - 1)

abbrev ValidIdom (f : MirFunction) (parent : Nat → Nat) (idom : List (Option BasicBlockId)) : Prop :=
  idom.length = f.basicBlocks.length ∧ Valid (flow f) (cfgPreds f) parent (table idom)

abbrev IdomEntry (f : MirFunction) (order : List BasicBlockId) (parent : Nat → Nat)
    (idom : List (Option BasicBlockId)) (b new : BasicBlockId) : Prop :=
  Entry (flow f) (cfgPreds f) order.reverse.idxOf parent (table idom) b new

theorem Ordered.lt (ho : Ordered f order parent) (hb : DominatorTree.Reachable (flow f) b) :
    b < f.basicBlocks.length :=
  ho.postorder.lt b ((ho.postorder.mem_iff b).mpr hb)

def idomWeight (f : MirFunction) (order : List BasicBlockId) (idom : List (Option BasicBlockId)) :
    Nat :=
  weight order.reverse.idxOf (f.basicBlocks.length - 1) f.basicBlocks.length (table idom)

/-- What one turn does to a block: it enters the meet of the predecessors that have entries. -/
theorem Ordered.enters (ho : Ordered f order parent) (hv : ValidIdom f parent idom)
    (hb : DominatorTree.Reachable (flow f) b) (hne : b ≠ 0)
    (hs : Swept (flow f) order.reverse.idxOf parent (table idom) (order.reverse.idxOf b))
    (hfuel : 2 * f.basicBlocks.length ≤ fuel) :
    ∃ new, IdomEntry f order parent idom b new ∧ ∀ changed,
      idomStep? f order.reverse fuel (idom, changed) b =
        if table idom b = some new then some (idom, changed)
        else some (idom.set b (some new), true) := by
  have hc := hv.2.climbs ho.tree
  have hinj : ∀ x y, Assigned (table idom) x → Assigned (table idom) y →
      order.reverse.idxOf x = order.reverse.idxOf y → x = y := fun x y hx hy =>
    ho.tree.rank_inj x y (hv.2.reachable x hx) (hv.2.reachable y hy)
  have hbound : ∀ x, Assigned (table idom) x →
      order.reverse.idxOf x ≤ f.basicBlocks.length - 1 := fun x hx =>
    ho.tree.rank_le x (hv.2.reachable x hx)
  have hparent : parent b ∈ (cfgPreds f b).filter fun p => (table idom p).isSome :=
    List.mem_filter.mpr ⟨ho.tree.parent_pred b hb hne,
      hs.assigned _ (ho.tree.parent_reachable b hb) (ho.tree.parent_lt b hb hne)⟩
  have hassigned : ∀ p ∈ (cfgPreds f b).filter fun p => (table idom p).isSome,
      Assigned (table idom) p := fun p hp => (List.mem_filter.mp hp).2
  simp only [idomStep?]
  cases hpreds : (cfgPreds f b).filter fun p => (table idom p).isSome with
  | nil =>
    rw [hpreds] at hparent
    exact absurd hparent List.not_mem_nil
  | cons first rest =>
    rw [hpreds] at hassigned
    obtain ⟨new, hnew, hmeet⟩ := hc.meets_isMeet hinj hbound
      (show 2 * (f.basicBlocks.length - 1) ≤ fuel by omega) (hassigned first List.mem_cons_self)
      fun x hx => hassigned x (List.mem_cons_of_mem _ hx)
    refine ⟨new, ⟨hb, hne, hs, hpreds ▸ hmeet⟩, ?_⟩
    intro changed
    simp only [table] at hpreds
    rw [hpreds]
    change (rest.foldlM (meet (up (table idom)) order.reverse.idxOf fuel) first).bind _ = _
    rw [hnew]
    rfl

/-- The state after the blocks of `done`, where the round began with `idom`. -/
structure Passed (f : MirFunction) (order : List BasicBlockId) (parent : Nat → Nat)
    (idom : List (Option BasicBlockId)) (done : List BasicBlockId)
    (state : List (Option BasicBlockId) × Bool) : Prop where
  valid : ValidIdom f parent state.1
  swept : Swept (flow f) order.reverse.idxOf parent (table state.1) (done.length + 1)
  changed : state.2 = true → idomWeight f order state.1 < idomWeight f order idom
  unchanged : state.2 = false → state.1 = idom ∧
    ∀ b ∈ done, ∃ new, IdomEntry f order parent idom b new ∧ table idom b = some new

theorem Ordered.swept_one (ho : Ordered f order parent) (hv : ValidIdom f parent idom) :
    Swept (flow f) order.reverse.idxOf parent (table idom) 1 := by
  have hzero : ∀ b, DominatorTree.Reachable (flow f) b → order.reverse.idxOf b < 1 → b = 0 := by
    intro b hb hlt
    apply ho.tree.rank_inj b 0 hb reachable_zero
    rw [ho.postorder.reverse_eq] at hlt ⊢
    rw [List.idxOf_cons_self]
    omega
  constructor
  · intro b hb hlt
    rw [hzero b hb hlt]
    exact assigned_zero hv.2
  · intro b hb hne hlt
    exact absurd (hzero b hb hlt) hne

/-- The block that a round comes to next has as its rank the number of those before it. -/
theorem Ordered.next (ho : Ordered f order parent) {done rest : List BasicBlockId}
    (hsplit : order.reverse.tail = done ++ b :: rest) :
    DominatorTree.Reachable (flow f) b ∧ b ≠ 0 ∧ order.reverse.idxOf b = done.length + 1 := by
  have hrev : order.reverse = (0 :: done) ++ b :: rest := by
    rw [ho.postorder.reverse_eq, hsplit]
    rfl
  have hnodup := List.nodup_reverse.mpr ho.postorder.nodup
  have hmem : b ∈ order.reverse := by
    rw [hrev]
    exact List.mem_append_right _ List.mem_cons_self
  rw [hrev] at hnodup
  have hout : b ∉ 0 :: done := fun h =>
    List.disjoint_of_nodup_append hnodup h List.mem_cons_self
  refine ⟨(ho.postorder.mem_iff b).mp (List.mem_reverse.mp hmem), ?_, ?_⟩
  · rintro rfl
    exact hout List.mem_cons_self
  · rw [hrev, List.idxOf_append_of_notMem hout, List.idxOf_cons_self, List.length_cons, Nat.add_zero]

theorem Ordered.passes (ho : Ordered f order parent) (hv : ValidIdom f parent idom)
    (hfuel : 2 * f.basicBlocks.length ≤ fuel) {done rest : List BasicBlockId}
    (hsplit : order.reverse.tail = done ++ rest) :
    ∃ state, done.foldlM (idomStep? f order.reverse fuel) (idom, false) = some state ∧
      Passed f order parent idom done state := by
  induction done using List.reverseRecOn generalizing rest with
  | nil =>
    refine ⟨(idom, false), rfl, hv, ho.swept_one hv, ?_, ?_⟩
    · intro h
      exact absurd h Bool.false_ne_true
    · exact fun _ => ⟨rfl, fun b hb => absurd hb List.not_mem_nil⟩
  | append_singleton done b ih =>
    rw [List.append_assoc, List.singleton_append] at hsplit
    obtain ⟨⟨mid, changed⟩, hmid, hp⟩ := ih hsplit
    obtain ⟨hb, hne, hrank⟩ := ho.next hsplit
    have hswept := hp.swept
    rw [← hrank] at hswept
    obtain ⟨new, he, hstep⟩ := ho.enters hp.valid hb hne hswept hfuel
    have hrun : (done ++ [b]).foldlM (idomStep? f order.reverse fuel) (idom, false) =
        idomStep? f order.reverse fuel (mid, changed) b := by
      rw [List.foldlM_append, hmid]
      simp only [List.foldlM_cons, List.foldlM_nil, Option.bind_eq_bind, Option.bind_some]
      exact Option.bind_fun_some _
    have hextends := he.extends_swept ho.tree hp.valid.2
    rw [hrank] at hextends
    have hlen : (done ++ [b]).length = done.length + 1 := List.length_append
    rw [hrun, hstep changed]
    by_cases hsame : table mid b = some new
    · rw [if_pos hsame]
      rw [← hsame, Function.update_eq_self] at hextends
      refine ⟨_, rfl, hp.valid, hlen ▸ hextends, hp.changed, ?_⟩
      intro hc
      obtain ⟨hmid, hall⟩ := hp.unchanged hc
      refine ⟨hmid, ?_⟩
      obtain rfl : mid = idom := hmid
      intro c hc
      rcases List.mem_append.mp hc with hc | hc
      · exact hall c hc
      · rw [List.mem_singleton.mp hc]
        exact ⟨new, he, hsame⟩
    · rw [if_neg hsame]
      have hset : table (mid.set b (some new)) = Function.update (table mid) b (some new) :=
        table_set (hp.valid.1 ▸ ho.lt hb) new
      have hlt : idomWeight f order (mid.set b (some new)) < idomWeight f order mid := by
        rw [idomWeight, hset]
        exact he.weight_lt ho.tree hp.valid.2 (ho.lt hb) hsame
      refine ⟨_, rfl, ⟨?_, ?_⟩, ?_, ?_, ?_⟩
      · rw [List.length_set, hp.valid.1]
      · rw [hset]
        exact he.valid ho.tree hp.valid.2
      · rw [hset, hlen]
        exact hextends
      · intro _
        cases changed with
        | true => exact Nat.lt_trans hlt (hp.changed rfl)
        | false =>
          obtain rfl : mid = idom := (hp.unchanged rfl).1
          exact hlt
      · intro h
        exact absurd h.symm Bool.false_ne_true

/-- The rounds end, and leave every reachable block with the meet of its predecessors. -/
theorem Ordered.rounds_end (ho : Ordered f order parent) (hv : ValidIdom f parent idom)
    (hfuel : 2 * f.basicBlocks.length ≤ fuel) {rounds : Nat}
    (hrounds : idomWeight f order idom < rounds) :
    ∃ last, idomRounds? f order.reverse fuel rounds idom = some last ∧ ValidIdom f parent last ∧
      Settled (flow f) (cfgPreds f) (table last) := by
  induction rounds generalizing idom with
  | zero => omega
  | succ rounds ih =>
    obtain ⟨⟨next, changed⟩, hrun, hp⟩ :=
      ho.passes hv hfuel (List.append_nil order.reverse.tail).symm
    have hround : idomRounds? f order.reverse fuel (rounds + 1) idom =
        if changed then idomRounds? f order.reverse fuel rounds next else some next := by
      rw [idomRounds?, hrun]
      rfl
    rw [hround]
    cases changed with
    | true =>
      have hlt : idomWeight f order next < idomWeight f order idom := hp.changed rfl
      exact ih hp.valid (by omega)
    | false =>
      obtain ⟨hsame, hall⟩ := hp.unchanged rfl
      obtain rfl : next = idom := hsame
      refine ⟨next, rfl, hv, ?_, ?_⟩
      · intro b hb
        apply hp.swept.assigned b hb
        have hlt := ho.postorder.idxOf_lt hb
        rw [List.length_tail, List.length_reverse]
        omega
      · intro b hb hne p hmem hpa
        have hb' : b ∈ order.reverse := List.mem_reverse.mpr ((ho.postorder.mem_iff b).mpr hb)
        rw [ho.postorder.reverse_eq] at hb'
        obtain ⟨new, he, hnew⟩ := hall b ((List.mem_cons.mp hb').resolve_left hne)
        have hup : up (table next) b = new := by
          rw [up, hnew]
          rfl
        rw [hup]
        exact he.above hmem hpa

/-- The walk up from a block ends, and passes what is above it. -/
theorem Ordered.walk_ends (ho : Ordered f order parent) (hv : ValidIdom f parent idom)
    (hb : Assigned (table idom) b) (hfuel : order.reverse.idxOf b < fuel) :
    ∃ set, dominatorsOf? idom fuel b = some set ∧ ∀ d, d ∈ set ↔ Above (up (table idom)) b d := by
  have hc := hv.2.climbs ho.tree
  induction fuel generalizing b with
  | zero => omega
  | succ fuel ih =>
    obtain ⟨d, hd⟩ := Option.isSome_iff_exists.mp hb
    have hup : up (table idom) b = d := by
      rw [up, hd]
      rfl
    simp only [table] at hd
    simp only [dominatorsOf?, hd]
    by_cases hself : d = b
    · rw [if_neg (not_not_intro hself)]
      refine ⟨[b], rfl, ?_⟩
      intro x
      rw [List.mem_singleton, above_iff_of_fixed (hup.trans hself)]
    · rw [if_pos hself]
      have hne : b ≠ 0 := by
        rintro rfl
        exact hself (hup.symm.trans hc.up_root)
      have hfalls := hc.falls b hb hne
      have hclosed := hc.up_mem b hb
      rw [hup] at hfalls hclosed
      obtain ⟨set, hset, hmem⟩ := ih hclosed (by omega)
      refine ⟨b :: set, by rw [hset]; rfl, ?_⟩
      intro x
      rw [List.mem_cons, hmem, above_iff (x := b), hup, eq_comm]

theorem dominatorsOf?_none (hb : ¬ Assigned (table idom) b) (hfuel : 0 < fuel) :
    dominatorsOf? idom fuel b = some [b] := by
  obtain ⟨fuel, rfl⟩ : ∃ n, fuel = n + 1 := ⟨fuel - 1, by omega⟩
  rw [Assigned, Bool.not_eq_true, Option.isSome_eq_false_iff, Option.isNone_iff_eq_none] at hb
  simp only [table] at hb
  simp only [dominatorsOf?, hb]

end Rounds

section Start

variable {f : MirFunction}

theorem postorderBudget_eq :
    postorderBudget f = ∑ b ∈ Finset.range f.basicBlocks.length, ((cfgSuccs f b).length + 1) + 1 := by
  unfold postorderBudget
  induction f.basicBlocks.length with
  | zero => rfl
  | succ n ih =>
    rw [List.range_succ, List.foldl_append, ih, Finset.sum_range_succ]
    simp only [List.foldl_cons, List.foldl_nil]
    omega

theorem exists_ordered (hn : 0 < f.basicBlocks.length) {fuel : Nat}
    (hfuel : postorderBudget f ≤ fuel) :
    ∃ order parent, postorder? (cfgSuccs f) f.basicBlocks.length fuel [(0, 0)] [0] [] = some order ∧
      Ordered f order parent := by
  rw [postorderBudget_eq] at hfuel
  have hpreds : ∀ b, b < f.basicBlocks.length → ∀ p, p ∈ cfgPreds f b ↔ b ∈ cfgSuccs f p :=
    fun b _ p => mem_cfgPreds.trans mem_cfgSuccs.symm
  obtain ⟨order, hrun, ho⟩ := postorder?_start hn hfuel
  obtain ⟨parent, ht⟩ := ho.forwardTree hpreds
  exact ⟨order, parent, hrun, ho, ht⟩

abbrev startIdom (f : MirFunction) : List (Option BasicBlockId) :=
  (List.replicate f.basicBlocks.length none).set 0 (some 0)

theorem table_startIdom (hn : 0 < f.basicBlocks.length) (b : BasicBlockId) :
    table (startIdom f) b = if b = 0 then some 0 else none := by
  by_cases h : b = 0
  · subst h
    rw [if_pos rfl, table, List.getD_eq_getElem?_getD,
      List.getElem?_set_self (by rwa [List.length_replicate])]
    rfl
  · rw [if_neg h]
    simp only [table, List.getD_eq_getElem?_getD, List.getElem?_set_ne (Ne.symm h),
      List.getElem?_replicate]
    split <;> rfl

theorem validIdom_start (hn : 0 < f.basicBlocks.length) (parent : Nat → Nat) :
    ValidIdom f parent (startIdom f) := by
  have hzero : ∀ b, Assigned (table (startIdom f)) b → b = 0 := by
    intro b hb
    by_contra hne
    rw [Assigned, table_startIdom hn, if_neg hne] at hb
    exact absurd hb Bool.false_ne_true
  refine ⟨by rw [List.length_set, List.length_replicate], ?_⟩
  constructor
  case zero => rw [table_startIdom hn, if_pos rfl]
  case reachable =>
    intro b hb
    rw [hzero b hb]
    exact reachable_zero
  case closed =>
    intro b hb
    have hup : up (table (startIdom f)) b = b := by
      rw [up, hzero b hb, table_startIdom hn, if_pos rfl]
      rfl
    rwa [hup]
  case ancestor => exact fun b hb hne => absurd (hzero b hb) hne
  case dominated => exact fun b hb hne => absurd (hzero b hb) hne
  case late => exact fun b hb hne => absurd (hzero b hb) hne

theorem idomWeight_start_le (hn : 0 < f.basicBlocks.length) (order : List BasicBlockId)
    (parent : Nat → Nat) (ho : Ordered f order parent) :
    idomWeight f order (startIdom f) ≤ f.basicBlocks.length * f.basicBlocks.length := by
  have hle : idomWeight f order (startIdom f) ≤
      f.basicBlocks.length * (f.basicBlocks.length - 1 + 1) := by
    apply weight_le
    intro b d hd
    rw [table_startIdom hn] at hd
    split at hd
    · rw [← Option.some.inj hd]
      exact ho.tree.rank_le 0 reachable_zero
    · exact absurd hd (fun h => nomatch h)
  rwa [Nat.sub_add_cancel hn] at hle

end Start

section Exact

variable {f : MirFunction} {order : List BasicBlockId} {parent : Nat → Nat}
  {idom : List (Option BasicBlockId)} {b : BasicBlockId} {fuel : Nat}

/-- The walk up from a block passes its dominators, or the block alone where control does not come. -/
theorem Ordered.walk_exact (ho : Ordered f order parent) (hv : ValidIdom f parent idom)
    (hs : Settled (flow f) (cfgPreds f) (table idom)) (hb : b < f.basicBlocks.length)
    (hfuel : f.basicBlocks.length ≤ fuel) :
    ∃ set, dominatorsOf? idom fuel b = some set ∧
      (DominatorTree.Reachable f.successors b →
        ∀ d, d ∈ set ↔ DominatorTree.Dominates f.successors d b) ∧
      (¬ DominatorTree.Reachable f.successors b → ∀ d, d ∈ set ↔ d = b) := by
  by_cases hr : DominatorTree.Reachable (flow f) b
  · have hlt := ho.postorder.idxOf_lt hr
    have hle := ho.postorder.length_le
    have henough : order.reverse.idxOf b < fuel := by omega
    obtain ⟨set, hset, hmem⟩ := ho.walk_ends hv (hs.assigned b hr) henough
    refine ⟨set, hset, ?_, ?_⟩
    · intro _ d
      rw [hmem, hs.above_iff_dominates ho.tree hv.2 hr, dominates_flow hb]
    · exact fun hout => absurd ((reachable_flow hb).mp hr) hout
  · have hout : ¬ Assigned (table idom) b := fun ha => hr (hv.2.reachable b ha)
    have hpos : 0 < fuel := Nat.lt_of_lt_of_le (Nat.zero_lt_of_lt hb) hfuel
    refine ⟨[b], dominatorsOf?_none hout hpos, ?_, ?_⟩
    · exact fun h => absurd ((reachable_flow hb).mpr h) hr
    · exact fun _ d => List.mem_singleton

theorem mapM_range_some {α : Type} {g : Nat → Option α} {P : Nat → α → Prop} {n : Nat}
    (h : ∀ b < n, ∃ x, g b = some x ∧ P b x) (default : α) :
    ∃ xs, (List.range n).mapM g = some xs ∧ xs.length = n ∧ ∀ b < n, P b (xs.getD b default) := by
  induction n with
  | zero => exact ⟨[], rfl, rfl, fun b hb => absurd hb (Nat.not_lt_zero b)⟩
  | succ n ih =>
    obtain ⟨xs, hxs, hlen, hall⟩ := ih fun b hb => h b (Nat.lt_succ_of_lt hb)
    obtain ⟨x, hx, hP⟩ := h n (Nat.lt_succ_self n)
    refine ⟨xs ++ [x], ?_, by simp [hlen], ?_⟩
    · rw [List.range_succ, List.mapM_append, hxs]
      simp [hx]
    · intro b hb
      by_cases heq : b = n
      · subst heq
        simpa [List.getD_eq_getElem?_getD, ← hlen] using hP
      · have hlt : b < n := by omega
        have hget := hall b hlt
        rw [List.getD_eq_getElem?_getD] at hget ⊢
        rwa [List.getElem?_append_left (hlen ▸ hlt)]

/-- The computation ends, with the blocks on every path to a block as the block's dominators. -/
theorem dominators_exact (f : MirFunction) :
    ∃ bound, ∀ fuel, bound ≤ fuel → ∃ sets, dominators? f fuel = some sets ∧
      sets.length = f.basicBlocks.length ∧ ∀ b < f.basicBlocks.length,
        (DominatorTree.Reachable f.successors b →
          ∀ d, d ∈ sets.getD b [] ↔ DominatorTree.Dominates f.successors d b) ∧
        (¬ DominatorTree.Reachable f.successors b → ∀ d, d ∈ sets.getD b [] ↔ d = b) := by
  by_cases hzero : f.basicBlocks.length = 0
  · refine ⟨0, fun fuel _ => ⟨[], ?_, hzero.symm, ?_⟩⟩
    · simp only [dominators?, if_pos hzero]
    · intro b hb
      omega
  · have hn : 0 < f.basicBlocks.length := Nat.pos_of_ne_zero hzero
    refine ⟨postorderBudget f + f.basicBlocks.length * f.basicBlocks.length +
      2 * f.basicBlocks.length + 1, ?_⟩
    intro fuel hfuel
    have hbudget : postorderBudget f ≤ fuel := by omega
    obtain ⟨order, parent, horder, ho⟩ := exists_ordered hn hbudget
    have hwalks : 2 * f.basicBlocks.length ≤ fuel := by omega
    have hweight := idomWeight_start_le hn order parent ho
    have hrounds : idomWeight f order (startIdom f) < fuel := by omega
    obtain ⟨idom, hidom, hv, hs⟩ := ho.rounds_end (validIdom_start hn parent) hwalks hrounds
    have hup : f.basicBlocks.length ≤ fuel := by omega
    obtain ⟨sets, hsets, hlen, hall⟩ := mapM_range_some
      (fun b hb => ho.walk_exact hv hs hb hup) []
    refine ⟨sets, ?_, hlen, hall⟩
    simp only [dominators?, if_neg hzero, horder]
    change (idomRounds? f order.reverse fuel fuel (startIdom f)).bind _ = _
    rw [hidom]
    exact hsets

end Exact

/-! The total functions agree with those that may run out of fuel, wherever these return. -/

section Total

variable {f : MirFunction} {rpo : List BasicBlockId} {idom : List (Option BasicBlockId)}

theorem postorder_eq {fuel : Nat} {stack : List (BasicBlockId × Nat)}
    {visited order r : List BasicBlockId}
    (h : postorder? (cfgSuccs f) f.basicBlocks.length fuel stack visited order = some r) :
    postorder f fuel stack visited order = r := by
  induction fuel generalizing stack visited order with
  | zero => simp [postorder?] at h
  | succ fuel ih =>
    cases stack with
    | nil => exact Option.some.inj h
    | cons top stack =>
      obtain ⟨node, child⟩ := top
      simp only [postorder?] at h
      simp only [postorder]
      split at h
      · next next hnext =>
        rw [hnext]
        dsimp only
        split at h
        · next hnew =>
          rw [if_pos hnew]
          exact ih h
        · next hseen =>
          rw [if_neg hseen]
          exact ih h
      · next hnone =>
        rw [hnone]
        exact ih h

theorem intersect_eq {fuel : Nat} {a b r : BasicBlockId}
    (h : intersect? rpo idom fuel a b = some r) : intersect rpo idom fuel a b = r := by
  unfold intersect? at h
  induction fuel generalizing a b with
  | zero =>
    rw [meet] at h
    split at h
    · exact Option.some.inj h
    · exact absurd h (fun h => nomatch h)
  | succ fuel ih =>
    rw [meet] at h
    rw [intersect]
    split at h
    · next heq =>
      rw [if_pos heq]
      exact Option.some.inj h
    · next hne =>
      rw [if_neg hne]
      split at h
      · next hlt =>
        rw [if_pos hlt]
        exact ih h
      · next hle =>
        rw [if_neg hle]
        split at h
        · exact ih h
        · exact absurd h (fun h => nomatch h)

theorem foldl_eq_of_foldlM {α β : Type} {g : β → α → Option β} {g' : β → α → β}
    (hg : ∀ s x r, g s x = some r → g' s x = r) {xs : List α} {s r : β}
    (h : xs.foldlM g s = some r) : xs.foldl g' s = r := by
  induction xs generalizing s with
  | nil => exact Option.some.inj h
  | cons x xs ih =>
    rw [List.foldlM_cons] at h
    obtain ⟨mid, hmid, h⟩ := Option.bind_eq_some_iff.mp h
    rw [List.foldl_cons, hg s x mid hmid]
    exact ih h

theorem idomStep_eq {state r : List (Option BasicBlockId) × Bool} {b : BasicBlockId}
    (h : idomStep? f rpo (2 * f.basicBlocks.length) state b = some r) :
    ((idomStep f rpo state.1 b).1, state.2 || (idomStep f rpo state.1 b).2) = r := by
  unfold idomStep? at h
  unfold idomStep
  cases hpreds : (cfgPreds f b).filter fun p => (state.1.getD p none).isSome with
  | nil =>
    simp only [hpreds] at h ⊢
    rw [Bool.or_false]
    exact Option.some.inj h
  | cons first rest =>
    simp only [hpreds] at h ⊢
    obtain ⟨new, hnew, h⟩ := Option.bind_eq_some_iff.mp h
    rw [foldl_eq_of_foldlM (fun _ _ _ => intersect_eq) hnew]
    by_cases hsame : state.1.getD b none = some new
    · rw [if_pos hsame] at h ⊢
      rw [Bool.or_false]
      exact Option.some.inj h
    · rw [if_neg hsame] at h ⊢
      rw [Bool.or_true]
      exact Option.some.inj h

theorem idomRounds_eq {rounds : Nat} {last : List (Option BasicBlockId)}
    (h : idomRounds? f rpo (2 * f.basicBlocks.length) rounds idom = some last) :
    untilStable (sweep (idomStep f rpo) rpo.tail) rounds idom = some last := by
  induction rounds generalizing idom with
  | zero => simp [idomRounds?] at h
  | succ rounds ih =>
    rw [idomRounds?] at h
    obtain ⟨state, hstate, h⟩ := Option.bind_eq_some_iff.mp h
    have hround : sweep (idomStep f rpo) rpo.tail idom = state :=
      foldl_eq_of_foldlM (fun _ _ _ => idomStep_eq) hstate
    rw [untilStable, hround]
    split at h
    · next hchanged =>
      rw [if_pos hchanged]
      exact ih h
    · next hstable =>
      rw [if_neg hstable]
      exact h

theorem dominatorsOf_eq {fuel : Nat} {b : BasicBlockId} {set : List BasicBlockId}
    (h : dominatorsOf? idom fuel b = some set) : dominatorsOf idom fuel b = set := by
  induction fuel generalizing b set with
  | zero => simp [dominatorsOf?] at h
  | succ fuel ih =>
    unfold dominatorsOf? at h
    unfold dominatorsOf
    cases hd : idom.getD b none with
    | none =>
      simp only [hd] at h ⊢
      exact Option.some.inj h
    | some d =>
      simp only [hd] at h ⊢
      by_cases hne : d ≠ b
      · rw [if_pos hne] at h ⊢
        obtain ⟨rest, hrest, h⟩ := Option.map_eq_some_iff.mp h
        rw [ih hrest]
        exact h
      · rw [if_neg hne] at h ⊢
        exact Option.some.inj h

theorem mem_dominatorsOf {b : BasicBlockId} (hb : b < f.basicBlocks.length) :
    (DominatorTree.Reachable f.successors b → ∀ d,
      d ∈ dominatorsOf (immediateDominators f) f.basicBlocks.length b ↔
        DominatorTree.Dominates f.successors d b) ∧
    (¬ DominatorTree.Reachable f.successors b → ∀ d,
      d ∈ dominatorsOf (immediateDominators f) f.basicBlocks.length b ↔ d = b) := by
  have hn : 0 < f.basicBlocks.length := Nat.zero_lt_of_lt hb
  obtain ⟨order, parent, horder, ho⟩ := exists_ordered hn (Nat.le_refl _)
  have hweight := idomWeight_start_le hn order parent ho
  obtain ⟨idom, hidom, hv, hs⟩ := ho.rounds_end (validIdom_start hn parent) (Nat.le_refl _)
    (Nat.lt_succ_of_le hweight)
  have himmediate : immediateDominators f = idom := by
    have hrpo : reversePostorder f = order.reverse := by
      rw [reversePostorder, postorder_eq horder]
    simp only [immediateDominators, hrpo]
    rw [idomRounds_eq hidom]
    rfl
  obtain ⟨set, hset, hexact⟩ := ho.walk_exact hv hs hb (Nat.le_refl _)
  rw [himmediate, dominatorsOf_eq hset]
  exact hexact

end Total

end Olive
