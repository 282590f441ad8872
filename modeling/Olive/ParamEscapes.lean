import Mathlib.Algebra.GroupWithZero.Nat
import Mathlib.Data.Finset.Basic
import Olive.EscapeCopies
import Olive.Flags
import Olive.ParamAlias

namespace Olive

open UntilStable Flags

/-- `RUNTIME_ESCAPES`: runtime calls that store an argument, with the argument's position. -/
def runtimeEscapes : List (String × Nat) :=
  [("__olive_list_append", 1), ("__olive_list_insert", 2), ("__olive_obj_set", 2),
    ("__olive_obj_setdefault", 2), ("__olive_obj_setdefault_typed", 2), ("__olive_set_add", 1),
    ("__olive_set_add_typed", 1), ("__olive_chan_send", 1), ("__olive_mutex_new", 0),
    ("__olive_mutex_unlock", 1), ("__olive_pool_run", 1), ("__olive_pool_run_sync", 1),
    ("__olive_py_make_callable", 0), ("__olive_struct_box", 0)]

def runtimeEscape (name : String) (pos : Nat) : Bool :=
  runtimeEscapes.any fun e => e.1 == name && e.2 == pos

/-- The summaries under construction: one flag a parameter, by function name. -/
abbrev Escapes := FxHashMap String (List Bool)

def calleeEscape (escapes : Escapes) (callee : String) (pos : Nat) : Bool :=
  match escapes callee with
  | some v => v[pos]? == some true
  | none => false

def operandsWhere (p : Nat → Bool) (ops : List Operand) : List Operand :=
  (ops.zipIdx.filter fun o => p o.2).map (·.1)

def untagged (pyTags : Option PyCallTagSource) (pos : Nat) : Bool :=
  match pyTags with
  | some src => pyCallTagForPos src pos == 0
  | none => true

/-- The operands the statement at `idx` stores beyond the frame. -/
def escapingOperands (escapes : Escapes) (stmts : List Statement) (idx : Nat) :
    StatementKind → List Operand
  | .setAttr _ _ val => [val]
  | .setIndex _ _ val _ => [val]
  | .ptrStore _ val => [val]
  | .assign dst (.aggregate _ ops) => operandsWhere (untagged (pyCallCollTags stmts idx dst)) ops
  | .assign _ (.call (.const (.function callee)) args) =>
    operandsWhere (fun pos => runtimeEscape callee pos || calleeEscape escapes callee pos) args
  | _ => []

def markedOperands (f : MirFunction) (escapes : Escapes) : List Operand :=
  f.basicBlocks.flatMap fun bb =>
    bb.statements.zipIdx.flatMap fun (stmt, idx) =>
      escapingOperands escapes bb.statements idx stmt.kind

def mark (taint : List Word) (mask : Word) (op : Operand) : Word :=
  match op.local? with
  | some l => if l < taint.length then mask ||| taint.getD l 0 else mask
  | none => mask

def escapeMask (f : MirFunction) (escapes : Escapes) : Word :=
  (markedOperands f escapes).foldl (mark (aliasTaint f)) 0

def paramsEscaping (f : MirFunction) (escapes : Escapes) : List Bool :=
  (List.range f.argCount).map fun i => decide (escapeMask f escapes &&& paramBit i ≠ 0)

def mergeFlag (entry : List Bool) (e : Bool × Nat) : List Bool × Bool :=
  if e.1 && !entry.getD e.2 true then (entry.set e.2 true, true) else (entry, false)

def escapesStep (escapes : Escapes) (f : MirFunction) : Escapes × Bool :=
  match escapes f.name with
  | some entry =>
    let merged := sweep mergeFlag (paramsEscaping f escapes).zipIdx entry
    (escapes.insert f.name merged.1, merged.2)
  | none => (escapes, false)

def noEscapes (functions : List MirFunction) : Escapes :=
  functions.foldl (fun m f => m.insert f.name (List.replicate f.argCount false)) FxHashMap.empty

/-- One round a parameter of the program, and a last one, bound the outer loop. -/
def computeParamEscapes (functions : List MirFunction) : Option Escapes :=
  untilStable (sweep escapesStep functions) ((functions.map (·.argCount)).sum + 1)
    (noEscapes functions)

/-- A statement stores an operand where it outlives the frame, under the summaries `escapes`. -/
inductive EscapingOperand (escapes : Escapes) (stmts : List Statement) (idx : Nat) :
    StatementKind → Operand → Prop where
  | setAttr {obj attr val} : EscapingOperand escapes stmts idx (.setAttr obj attr val) val
  | setIndex {obj i val unchecked} :
      EscapingOperand escapes stmts idx (.setIndex obj i val unchecked) val
  | ptrStore {ptr val} : EscapingOperand escapes stmts idx (.ptrStore ptr val) val
  | aggregate {dst kind ops op} {pos : Nat} : ops[pos]? = some op →
      (∀ src, pyCallCollTags stmts idx dst = some src → pyCallTagForPos src pos = 0) →
      EscapingOperand escapes stmts idx (.assign dst (.aggregate kind ops)) op
  | runtimeCall {dst callee args op} {pos : Nat} : args[pos]? = some op →
      runtimeEscape callee pos = true →
      EscapingOperand escapes stmts idx (.assign dst (.call (.const (.function callee)) args)) op
  | call {dst callee args op} {pos : Nat} : args[pos]? = some op →
      calleeEscape escapes callee pos = true →
      EscapingOperand escapes stmts idx (.assign dst (.call (.const (.function callee)) args)) op

/-- Parameter `i` of `f` flows into an operand that some statement of `f` lets escape. -/
def ParamEscapes (escapes : Escapes) (f : MirFunction) (i : Nat) : Prop :=
  ∃ bb ∈ f.basicBlocks, ∃ (idx : Nat) (stmt : Statement) (op : Operand) (l : Local),
    bb.statements[idx]? = some stmt ∧ EscapingOperand escapes bb.statements idx stmt.kind op ∧
      op.local? = some l ∧ ParamFlows f i l

theorem mem_operandsWhere {p : Nat → Bool} {ops : List Operand} {op : Operand} :
    op ∈ operandsWhere p ops ↔ ∃ pos : Nat, ops[pos]? = some op ∧ p pos = true := by
  simp only [operandsWhere, List.mem_map, List.mem_filter, Prod.exists,
    List.mem_zipIdx_iff_getElem?]
  constructor
  · rintro ⟨_, pos, ⟨ho, hp⟩, rfl⟩
    exact ⟨pos, ho, hp⟩
  · rintro ⟨pos, ho, hp⟩
    exact ⟨op, pos, ⟨ho, hp⟩, rfl⟩

theorem untagged_iff {pyTags : Option PyCallTagSource} {pos : Nat} :
    untagged pyTags pos = true ↔ ∀ src, pyTags = some src → pyCallTagForPos src pos = 0 := by
  cases pyTags <;> simp [untagged]

theorem mem_escapingOperands {escapes : Escapes} {stmts : List Statement} {idx : Nat}
    {kind : StatementKind} {op : Operand} :
    op ∈ escapingOperands escapes stmts idx kind ↔ EscapingOperand escapes stmts idx kind op := by
  constructor
  · intro h
    unfold escapingOperands at h
    split at h
    · rw [List.mem_singleton.mp h]; exact .setAttr
    · rw [List.mem_singleton.mp h]; exact .setIndex
    · rw [List.mem_singleton.mp h]; exact .ptrStore
    · obtain ⟨pos, ho, hp⟩ := mem_operandsWhere.mp h
      exact .aggregate ho (untagged_iff.mp hp)
    · obtain ⟨pos, ho, hp⟩ := mem_operandsWhere.mp h
      rcases Bool.or_eq_true_iff.mp hp with hp | hp
      · exact .runtimeCall ho hp
      · exact .call ho hp
    · simp at h
  · intro h
    cases h with
    | setAttr => simp [escapingOperands]
    | setIndex => simp [escapingOperands]
    | ptrStore => simp [escapingOperands]
    | aggregate ho ht => exact mem_operandsWhere.mpr ⟨_, ho, untagged_iff.mpr ht⟩
    | runtimeCall ho hr =>
      rw [escapingOperands, mem_operandsWhere]
      exact ⟨_, ho, Bool.or_eq_true_iff.mpr (.inl hr)⟩
    | call ho hc =>
      rw [escapingOperands, mem_operandsWhere]
      exact ⟨_, ho, Bool.or_eq_true_iff.mpr (.inr hc)⟩

theorem mem_markedOperands {f : MirFunction} {escapes : Escapes} {op : Operand} :
    op ∈ markedOperands f escapes ↔ ∃ bb ∈ f.basicBlocks, ∃ (idx : Nat) (stmt : Statement),
      bb.statements[idx]? = some stmt ∧
        EscapingOperand escapes bb.statements idx stmt.kind op := by
  simp only [markedOperands, List.mem_flatMap, Prod.exists, List.mem_zipIdx_iff_getElem?,
    mem_escapingOperands]
  constructor
  · rintro ⟨bb, hb, stmt, idx, hs, he⟩
    exact ⟨bb, hb, idx, stmt, hs, he⟩
  · rintro ⟨bb, hb, idx, stmt, hs, he⟩
    exact ⟨bb, hb, stmt, idx, hs, he⟩

theorem mark_fold_bit {taint : List Word} {ops : List Operand} {mask : Word} {b : Nat} :
    (ops.foldl (mark taint) mask).getLsbD b = true ↔ mask.getLsbD b = true ∨
      ∃ op ∈ ops, ∃ l, op.local? = some l ∧ (taint.getD l 0).getLsbD b = true := by
  induction ops generalizing mask with
  | nil => simp
  | cons op ops ih =>
    have hm : (mark taint mask op).getLsbD b = true ↔ mask.getLsbD b = true ∨
        ∃ l, op.local? = some l ∧ (taint.getD l 0).getLsbD b = true := by
      unfold mark
      cases ho : op.local? with
      | none => simp
      | some l =>
        by_cases hl : l < taint.length
        · simp [hl]
        · simp [hl]
    rw [List.foldl_cons, ih, hm]
    simp [or_assoc]

theorem escapeMask_bit {f : MirFunction} {escapes : Escapes} {b : Nat} :
    (escapeMask f escapes).getLsbD b = true ↔
      ∃ i, min i 63 = b ∧ ParamEscapes escapes f i := by
  rw [escapeMask, mark_fold_bit]
  constructor
  · rintro (h | ⟨op, ho, l, hl, hb⟩)
    · simp at h
    · obtain ⟨bb, hbb, idx, stmt, hs, he⟩ := mem_markedOperands.mp ho
      obtain ⟨i, hi, hf⟩ := aliasTaint_bit.mp hb
      exact ⟨i, hi, bb, hbb, idx, stmt, op, l, hs, he, hl, hf⟩
  · rintro ⟨i, hi, bb, hbb, idx, stmt, op, l, hs, he, hl, hf⟩
    exact .inr ⟨op, mem_markedOperands.mpr ⟨bb, hbb, idx, stmt, hs, he⟩, l, hl,
      aliasTaint_bit.mpr ⟨i, hi, hf⟩⟩

theorem and_paramBit_ne_zero {mask : Word} {i : Nat} :
    mask &&& paramBit i ≠ 0 ↔ mask.getLsbD (min i 63) = true := by
  constructor
  · intro h
    by_contra hb
    apply h
    apply BitVec.eq_of_getLsbD_eq
    intro b _
    by_cases he : (paramBit i).getLsbD b = true
    · have hm := (paramBit_getLsbD i b).mp he
      subst hm
      rw [BitVec.getLsbD_and, eq_false_of_ne_true hb, Bool.false_and]; simp
    · rw [BitVec.getLsbD_and, eq_false_of_ne_true he, Bool.and_false]; simp
  · intro h h0
    have hb := congrArg (·.getLsbD (min i 63)) h0
    have hp := (paramBit_getLsbD i (min i 63)).mpr rfl
    simp only [BitVec.getLsbD_and, h, hp] at hb
    simp at hb

theorem paramsEscaping_length (f : MirFunction) (escapes : Escapes) :
    (paramsEscaping f escapes).length = f.argCount := by
  simp [paramsEscaping]

/-- Up to the shared top bit, a parameter is reported exactly when it escapes. -/
theorem paramsEscaping_iff {f : MirFunction} {escapes : Escapes} {i : Nat} (hi : i < f.argCount) :
    (paramsEscaping f escapes)[i]? = some true ↔
      ∃ j, min j 63 = min i 63 ∧ ParamEscapes escapes f j := by
  have hr : (List.range f.argCount)[i]? = some i := List.getElem?_range hi
  rw [paramsEscaping, List.getElem?_map, hr, Option.map_some, Option.some.injEq, decide_eq_true_iff,
    and_paramBit_ne_zero, escapeMask_bit]

/-- `escapes'` reports every position that `escapes` reports. -/
def Escapes.Below (escapes escapes' : Escapes) : Prop :=
  ∀ callee pos, calleeEscape escapes callee pos = true → calleeEscape escapes' callee pos = true

theorem EscapingOperand.mono {escapes escapes' : Escapes} (hle : escapes.Below escapes')
    {stmts : List Statement} {idx : Nat} {kind : StatementKind} {op : Operand}
    (h : EscapingOperand escapes stmts idx kind op) :
    EscapingOperand escapes' stmts idx kind op := by
  cases h with
  | setAttr => exact .setAttr
  | setIndex => exact .setIndex
  | ptrStore => exact .ptrStore
  | aggregate ho ht => exact .aggregate ho ht
  | runtimeCall ho hr => exact .runtimeCall ho hr
  | call ho hc => exact .call ho (hle _ _ hc)

theorem ParamEscapes.mono {escapes escapes' : Escapes} (hle : escapes.Below escapes')
    {f : MirFunction} {i : Nat} (h : ParamEscapes escapes f i) : ParamEscapes escapes' f i := by
  obtain ⟨bb, hbb, idx, stmt, op, l, hs, he, hl, hf⟩ := h
  exact ⟨bb, hbb, idx, stmt, op, l, hs, he.mono hle, hl, hf⟩

theorem mergeFlag_length (entry : List Bool) (e : Bool × Nat) :
    (mergeFlag entry e).1.length = entry.length := by
  unfold mergeFlag
  split <;> simp

theorem mergeFlag_unchanged {entry : List Bool} {e : Bool × Nat}
    (h : (mergeFlag entry e).2 = false) : (mergeFlag entry e).1 = entry := by
  unfold mergeFlag at h ⊢
  split at h
  next => simp at h
  next hc => rw [if_neg hc]

theorem mergeFlag_keeps {entry : List Bool} {e : Bool × Nat} {i : Nat}
    (h : entry[i]? = some true) : (mergeFlag entry e).1[i]? = some true := by
  have hi := (List.getElem?_eq_some_iff.mp h).1
  unfold mergeFlag
  split
  · rw [List.getElem?_set]
    split
    next he => subst he; simp [hi]
    next => exact h
  · exact h

theorem mergeFlag_origin {entry : List Bool} {e : Bool × Nat} {i : Nat}
    (h : (mergeFlag entry e).1[i]? = some true) : entry[i]? = some true ∨ e = (true, i) := by
  unfold mergeFlag at h
  split at h
  next hc =>
    rw [List.getElem?_set] at h
    split at h
    next he =>
      obtain ⟨flag, pos⟩ := e
      simp only [Bool.and_eq_true] at hc he
      exact .inr (by rw [hc.1, he])
    next => exact .inl h
  next => exact .inl h

theorem mergeFlag_facts_subset (entry : List Bool) (e : Bool × Nat) :
    flagFacts entry ⊆ flagFacts (mergeFlag entry e).1 :=
  fun _ hi => mem_flagFacts.mpr (mergeFlag_keeps (mem_flagFacts.mp hi))

theorem mergeFlag_facts_ssubset {entry : List Bool} {e : Bool × Nat}
    (h : (mergeFlag entry e).2 = true) : flagFacts entry ⊂ flagFacts (mergeFlag entry e).1 := by
  refine ⟨mergeFlag_facts_subset entry e, ?_⟩
  unfold mergeFlag at h ⊢
  split at h
  next hc =>
    obtain ⟨_, hnew⟩ := Bool.and_eq_true_iff.mp hc
    intro hs
    have hi : e.2 < entry.length := by
      by_contra hlen
      simp [List.getD_eq_getElem?_getD, List.getElem?_eq_none (Nat.le_of_not_lt hlen)] at hnew
    have hset : e.2 ∈ flagFacts (entry.set e.2 true) :=
      mem_flagFacts.mpr (by simp [hi])
    rw [if_pos hc] at hs
    have hold := mem_flagFacts.mp (hs hset)
    simp [List.getD_eq_getElem?_getD, hold] at hnew
  next => simp at h

/-- What one function's turn does: its entry grows to cover the freshly computed flags. -/
theorem mergeFlags_spec {entry updated : List Bool} (hlen : entry.length = updated.length) :
    let merged := sweep mergeFlag updated.zipIdx entry
    merged.1.length = entry.length ∧
      (∀ i : Nat, entry[i]? = some true → merged.1[i]? = some true) ∧
      (∀ i : Nat, merged.1[i]? = some true → entry[i]? = some true ∨ updated[i]? = some true) ∧
      (merged.2 = true → flagFacts entry ⊂ flagFacts merged.1) ∧
      (merged.2 = false → merged.1 = entry ∧
        ∀ i : Nat, updated[i]? = some true → entry[i]? = some true) := by
  have hinv : ∀ s : List Bool, ∀ e ∈ updated.zipIdx, True → True := fun _ _ _ h => h
  have hgrows := sweep_grows (s := entry) flagFacts hinv
    (fun s e _ _ => mergeFlag_facts_subset s e) (fun _ _ _ _ => mergeFlag_facts_ssubset) trivial
  refine ⟨?_, ?_, ?_, hgrows.2, ?_⟩
  · exact sweep_invariant (P := fun s : List Bool => s.length = entry.length)
      (fun s e _ hs => (mergeFlag_length s e).trans hs) rfl
  · exact fun i hi => mem_flagFacts.mp (hgrows.1 (mem_flagFacts.mpr hi))
  · refine sweep_invariant (P := fun s : List Bool => ∀ i : Nat, s[i]? = some true →
      entry[i]? = some true ∨ updated[i]? = some true) ?_ (fun i hi => .inl hi)
    intro s e he hs i hi
    rcases mergeFlag_origin hi with hi | rfl
    · exact hs i hi
    · exact .inr (List.mem_zipIdx_iff_getElem?.mp he)
  · intro hc
    obtain ⟨hsame, hall⟩ := sweep_unchanged (fun _ _ => mergeFlag_unchanged) hc
    refine ⟨hsame, ?_⟩
    intro i hi
    have hstep := hall (true, i) (List.mem_zipIdx_iff_getElem?.mpr hi)
    have hb := (List.getElem?_eq_some_iff.mp hi).1
    have hlt : i < entry.length := by omega
    have hget := List.getElem?_eq_getElem hlt
    unfold mergeFlag at hstep
    split at hstep
    · simp at hstep
    next hn => simpa [List.getD_eq_getElem?_getD, hget] using hn

theorem calleeEscape_eq {escapes : Escapes} {callee : String} {v : List Bool} {pos : Nat}
    (h : escapes callee = some v) :
    calleeEscape escapes callee pos = true ↔ v[pos]? = some true := by
  simp [calleeEscape, h]

/-- Every function has its entry, one flag a parameter. -/
def Escapes.Sized (functions : List MirFunction) (escapes : Escapes) : Prop :=
  ∀ f ∈ functions, ∃ v, escapes f.name = some v ∧ v.length = f.argCount

def parameters (functions : List MirFunction) : Finset (String × Nat) :=
  (functions.flatMap fun f => (List.range f.argCount).map fun i => (f.name, i)).toFinset

def escapeFacts (functions : List MirFunction) (escapes : Escapes) : Finset (String × Nat) :=
  (parameters functions).filter fun p => calleeEscape escapes p.1 p.2 = true

theorem mem_parameters {functions : List MirFunction} {f : MirFunction} {i : Nat}
    (hf : f ∈ functions) (hi : i < f.argCount) : (f.name, i) ∈ parameters functions := by
  simp only [parameters, List.mem_toFinset, List.mem_flatMap, List.mem_map, List.mem_range]
  exact ⟨f, hf, i, hi, rfl⟩

theorem parameters_card (functions : List MirFunction) :
    (parameters functions).card ≤ (functions.map (·.argCount)).sum := by
  refine (List.toFinset_card_le _).trans ?_
  simp [List.length_flatMap]

theorem escapesStep_eq {functions : List MirFunction} {escapes : Escapes} {f : MirFunction}
    (hs : escapes.Sized functions) (hf : f ∈ functions) :
    ∃ entry merged : List Bool, escapes f.name = some entry ∧ entry.length = f.argCount ∧
      merged.length = f.argCount ∧
      (escapesStep escapes f).1 = escapes.insert f.name merged ∧
      (∀ i : Nat, entry[i]? = some true → merged[i]? = some true) ∧
      (∀ i : Nat, merged[i]? = some true →
        entry[i]? = some true ∨ (paramsEscaping f escapes)[i]? = some true) ∧
      ((escapesStep escapes f).2 = true → flagFacts entry ⊂ flagFacts merged) ∧
      ((escapesStep escapes f).2 = false → merged = entry ∧
        ∀ i : Nat, (paramsEscaping f escapes)[i]? = some true → entry[i]? = some true) := by
  obtain ⟨entry, he, hlen⟩ := hs f hf
  have hspec := mergeFlags_spec (hlen.trans (paramsEscaping_length f escapes).symm)
  have hstep : escapesStep escapes f =
      (escapes.insert f.name (sweep mergeFlag (paramsEscaping f escapes).zipIdx entry).1,
        (sweep mergeFlag (paramsEscaping f escapes).zipIdx entry).2) := by
    simp [escapesStep, he]
  rw [hstep]
  exact ⟨entry, _, he, hlen, hspec.1.trans hlen, rfl, hspec.2.1, hspec.2.2.1, hspec.2.2.2.1,
    hspec.2.2.2.2⟩

theorem escapesStep_sized {functions : List MirFunction} {escapes : Escapes} {f : MirFunction}
    (hn : (functions.map (·.name)).Nodup) (hs : escapes.Sized functions) (hf : f ∈ functions) :
    (escapesStep escapes f).1.Sized functions := by
  obtain ⟨entry, merged, _, _, hlen, hstep, _⟩ := escapesStep_eq hs hf
  intro g hg
  rw [hstep]
  by_cases he : g.name = f.name
  · obtain rfl := List.inj_on_of_nodup_map hn hg hf he
    exact ⟨merged, FxHashMap.insert_self _ _ _, hlen⟩
  · rw [FxHashMap.insert_of_ne _ _ he]
    exact hs g hg

theorem escapesStep_grows {functions : List MirFunction} {escapes : Escapes} {f : MirFunction}
    (hs : escapes.Sized functions) (hf : f ∈ functions) :
    escapes.Below (escapesStep escapes f).1 := by
  obtain ⟨entry, merged, he, _, _, hstep, hkeep, _⟩ := escapesStep_eq hs hf
  intro callee pos hc
  rw [hstep]
  by_cases hname : callee = f.name
  · subst callee
    exact (calleeEscape_eq (FxHashMap.insert_self _ _ _)).mpr
      (hkeep pos ((calleeEscape_eq he).mp hc))
  · rwa [calleeEscape, FxHashMap.insert_of_ne _ _ hname]

theorem escapesStep_unchanged {escapes : Escapes} {f : MirFunction}
    (h : (escapesStep escapes f).2 = false) : (escapesStep escapes f).1 = escapes := by
  unfold escapesStep at h ⊢
  split at h
  next entry he =>
    have hsame := (sweep_unchanged (fun _ _ => mergeFlag_unchanged) h).1
    simp only [hsame]
    funext name
    by_cases hname : name = f.name
    · rw [hname, FxHashMap.insert_self, he]
    · exact FxHashMap.insert_of_ne _ _ hname
  next => rfl

theorem escapesStep_facts_ssubset {functions : List MirFunction} {escapes : Escapes}
    {f : MirFunction} (hs : escapes.Sized functions) (hf : f ∈ functions)
    (h : (escapesStep escapes f).2 = true) :
    escapeFacts functions escapes ⊂ escapeFacts functions (escapesStep escapes f).1 := by
  refine ⟨fun p hp => ?_, ?_⟩
  · simp only [escapeFacts, Finset.mem_filter] at hp ⊢
    exact ⟨hp.1, escapesStep_grows hs hf _ _ hp.2⟩
  · obtain ⟨entry, merged, he, _, hlen, hstep, _, _, hgrow, _⟩ := escapesStep_eq hs hf
    obtain ⟨i, hnew, hold⟩ := Finset.exists_of_ssubset (hgrow h)
    have hi := (List.getElem?_eq_some_iff.mp (mem_flagFacts.mp hnew)).1
    have hmem : (f.name, i) ∈ escapeFacts functions (escapesStep escapes f).1 := by
      rw [escapeFacts, Finset.mem_filter, hstep, calleeEscape_eq (FxHashMap.insert_self _ _ _)]
      exact ⟨mem_parameters hf (by omega), mem_flagFacts.mp hnew⟩
    intro hsub
    have hback := hsub hmem
    rw [escapeFacts, Finset.mem_filter, calleeEscape_eq he] at hback
    exact hold (mem_flagFacts.mpr hback.2)

/-- Every flag is that of an escaping parameter, up to the shared top bit. -/
def EscapesJustified (functions : List MirFunction) (escapes : Escapes) : Prop :=
  ∀ f ∈ functions, ∀ i < f.argCount, calleeEscape escapes f.name i = true →
    ∃ j, min j 63 = min i 63 ∧ ParamEscapes escapes f j

theorem escapesStep_justified {functions : List MirFunction} {escapes : Escapes} {f : MirFunction}
    (hn : (functions.map (·.name)).Nodup) (hs : escapes.Sized functions) (hf : f ∈ functions)
    (h : EscapesJustified functions escapes) :
    EscapesJustified functions (escapesStep escapes f).1 := by
  obtain ⟨entry, merged, he, _, _, hstep, _, horigin, _⟩ := escapesStep_eq hs hf
  have hbelow := escapesStep_grows hs hf
  intro g hg i hi hc
  have hold : calleeEscape escapes g.name i = true ∨
      (g = f ∧ (paramsEscaping f escapes)[i]? = some true) := by
    by_cases hname : g.name = f.name
    · obtain rfl := List.inj_on_of_nodup_map hn hg hf hname
      rw [hstep, calleeEscape_eq (FxHashMap.insert_self _ _ _)] at hc
      rw [calleeEscape_eq he]
      exact (horigin i hc).imp id fun hp => ⟨rfl, hp⟩
    · rw [hstep, calleeEscape, FxHashMap.insert_of_ne _ _ hname] at hc
      exact .inl hc
  rcases hold with hc | ⟨rfl, hp⟩
  · obtain ⟨j, hj, hesc⟩ := h g hg i hi hc
    exact ⟨j, hj, hesc.mono hbelow⟩
  · obtain ⟨j, hj, hesc⟩ := (paramsEscaping_iff hi).mp hp
    exact ⟨j, hj, hesc.mono hbelow⟩

theorem noEscapes_concat (functions : List MirFunction) (f : MirFunction) :
    noEscapes (functions ++ [f]) =
      (noEscapes functions).insert f.name (List.replicate f.argCount false) := by
  simp [noEscapes]

theorem noEscapes_sized {functions : List MirFunction} (hn : (functions.map (·.name)).Nodup) :
    (noEscapes functions).Sized functions := by
  induction functions using List.reverseRecOn with
  | nil => simp [Escapes.Sized]
  | append_singleton functions f ih =>
    rw [List.map_append, List.nodup_append] at hn
    intro g hg
    rw [noEscapes_concat]
    rcases List.mem_append.mp hg with hg | hg
    · have hne : g.name ≠ f.name := hn.2.2 _ (List.mem_map_of_mem hg) _ (by simp)
      rw [FxHashMap.insert_of_ne _ _ hne]
      exact ih hn.1 g hg
    · obtain rfl : g = f := by simpa using hg
      exact ⟨_, FxHashMap.insert_self _ _ _, List.length_replicate⟩

theorem noEscapes_calleeEscape (functions : List MirFunction) (callee : String) (pos : Nat) :
    calleeEscape (noEscapes functions) callee pos = false := by
  induction functions using List.reverseRecOn with
  | nil => rfl
  | append_singleton functions f ih =>
    rw [noEscapes_concat]
    by_cases hname : callee = f.name
    · subst callee
      simp [calleeEscape, List.getElem?_replicate]
    · rwa [calleeEscape, FxHashMap.insert_of_ne _ _ hname]

/-- The loop returns, and its result is the fixpoint of the whole-program equations. -/
theorem computeParamEscapes_fixpoint {functions : List MirFunction}
    (hn : (functions.map (·.name)).Nodup) :
    ∃ summary, computeParamEscapes functions = some summary ∧
      ∀ f ∈ functions, ∀ i < f.argCount, (calleeEscape summary f.name i = true ↔
        ∃ j, min j 63 = min i 63 ∧ ParamEscapes summary f j) := by
  let P := fun escapes : Escapes =>
    escapes.Sized functions ∧ EscapesJustified functions escapes
  have hitem : ∀ escapes, ∀ f ∈ functions, P escapes → P (escapesStep escapes f).1 :=
    fun _ f hf h => ⟨escapesStep_sized hn h.1 hf, escapesStep_justified hn h.1 hf h.2⟩
  have hround : ∀ escapes, P escapes → P (sweep escapesStep functions escapes).1 :=
    fun _ h => sweep_invariant hitem h
  have h0 : P (noEscapes functions) := by
    refine ⟨noEscapes_sized hn, ?_⟩
    intro f _ i _ hc
    simp [noEscapes_calleeEscape] at hc
  have hsub : ∀ escapes, ∀ f ∈ functions, P escapes →
      escapeFacts functions escapes ⊆ escapeFacts functions (escapesStep escapes f).1 := by
    intro escapes f hf h p hp
    rw [escapeFacts, Finset.mem_filter] at hp ⊢
    exact ⟨hp.1, escapesStep_grows h.1 hf _ _ hp.2⟩
  have hgrows := fun escapes => sweep_grows (s := escapes) (escapeFacts functions) hitem hsub
    (fun _ f hf h => escapesStep_facts_ssubset h.1 hf)
  obtain ⟨summary, hsum⟩ := untilStable_exists_of_grows (escapeFacts functions) hround
    (fun _ _ => Finset.filter_subset _ _) (fun _ h => (hgrows _ h).2) h0
    (Nat.lt_succ_of_le (parameters_card functions))
  refine ⟨summary, hsum, ?_⟩
  obtain ⟨escapes, hP, hlast⟩ := untilStable_last hround h0 hsum
  obtain ⟨hsame, hall⟩ :=
    sweep_unchanged (fun _ _ => escapesStep_unchanged) (congrArg Prod.snd hlast)
  obtain rfl : summary = escapes := by rw [← hsame, hlast]
  intro f hf i hi
  refine ⟨hP.2 f hf i hi, ?_⟩
  intro hesc
  obtain ⟨entry, merged, he, _, _, _, _, _, _, hkeep⟩ := escapesStep_eq hP.1 hf
  have hflag := (hkeep (congrArg Prod.snd (hall f hf))).2
  exact (calleeEscape_eq he).mpr (hflag i ((paramsEscaping_iff hi).mpr hesc))

/-- The summaries are computed, cover every escaping parameter, and up to 63 parameters
report no other. -/
theorem computeParamEscapes_sound {functions : List MirFunction}
    (hn : (functions.map (·.name)).Nodup) :
    ∃ summary, computeParamEscapes functions = some summary ∧
      ∀ f ∈ functions, ∀ i < f.argCount,
        (ParamEscapes summary f i → calleeEscape summary f.name i = true) ∧
        (f.argCount ≤ 63 → calleeEscape summary f.name i = true → ParamEscapes summary f i) := by
  obtain ⟨summary, hsum, hfix⟩ := computeParamEscapes_fixpoint hn
  refine ⟨summary, hsum, ?_⟩
  intro f hf i hi
  refine ⟨fun h => (hfix f hf i hi).mpr ⟨i, rfl, h⟩, ?_⟩
  intro hle hc
  obtain ⟨j, hj, hesc⟩ := (hfix f hf i hi).mp hc
  have hjlt : j < f.argCount := by
    obtain ⟨_, _, _, _, _, _, _, _, _, hflow⟩ := hesc
    exact hflow.lt_argCount
  obtain rfl : j = i := by omega
  exact hesc

/-- Two functions that pass their parameter to each other; `pong` also appends it to a list. -/
def pingPong : List MirFunction :=
  let decl : LocalDecl := ⟨.str, none, .default, false, true⟩
  let call (callee : String) (args : List Operand) : Statement :=
    ⟨.assign 0 (.call (.const (.function callee)) args), .default⟩
  let body (stmts : List Statement) : List BasicBlock := [⟨stmts, some ⟨.ret, .default⟩⟩]
  [⟨"ping", [decl, decl], body [call "pong" [.copy 1]], 1, none, none, ["x"], false⟩,
    ⟨"pong", [decl, decl, decl, decl],
      body [call "ping" [.copy 2], ⟨.assign 3 (.use (.copy 1)), .default⟩,
        call "__olive_list_append" [.copy 2, .move 3]], 2, none, none, ["x", "xs"], false⟩]

theorem computeParamEscapes_sound_pingPong :
    ∃ summary, computeParamEscapes pingPong = some summary ∧
      ∀ f ∈ pingPong, ∀ i < f.argCount,
        (ParamEscapes summary f i → calleeEscape summary f.name i = true) ∧
        (f.argCount ≤ 63 → calleeEscape summary f.name i = true → ParamEscapes summary f i) :=
  computeParamEscapes_sound (by decide)

example : (computeParamEscapes pingPong).map (fun s => (s "ping", s "pong")) =
    some (some [true], some [true, true]) := by
  decide +kernel

end Olive
