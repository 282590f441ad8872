import Olive.CallArgs

/-! A call binds its arguments as the signature says exactly where it meets none of the defects: a
keyword for a parameter behind `*args`, surplus arguments that would need boxing, and a default whose
names mean something else where the call stands. -/

namespace Olive

namespace CallArgs

/-- At most one `*args`, and at most one `**kwargs`, behind all other parameters. -/
structure Signature (Expr : Type) where
  params : List (Param Expr)
  names_nodup : (params.map (·.name)).Nodup
  varArg_unique : ∀ (i j : Nat) (p q : Param Expr), params[i]? = some p → params[j]? = some q →
    p.kind = .varArg → q.kind = .varArg → i = j
  kwArg_last : ∀ (i : Nat) (p : Param Expr), params[i]? = some p → p.kind = .kwArg →
    i + 1 = params.length

section LastIdx

variable {Expr : Type} {kind : ParamKind} {params : List (Param Expr)} {i k : Nat}
  {idx : Option Nat}

theorem lastIdx_some (h : lastIdx kind i idx params = some k) :
    (∃ p, i ≤ k ∧ params[k - i]? = some p ∧ p.kind = kind) ∨
      idx = some k ∧ ∀ p ∈ params, p.kind ≠ kind := by
  induction params generalizing i idx with
  | nil => exact .inr ⟨h, by simp⟩
  | cons p params ih =>
    rw [lastIdx] at h
    obtain ⟨q, hle, hq, hkind⟩ | ⟨hidx, hall⟩ := ih h
    · refine .inl ⟨q, by omega, ?_, hkind⟩
      rw [show k - i = k - (i + 1) + 1 by omega, List.getElem?_cons_succ]
      exact hq
    · by_cases hp : p.kind = kind
      · rw [if_pos hp, Option.some.injEq] at hidx
        exact .inl ⟨p, by omega, by simp [hidx], hp⟩
      · rw [if_neg hp] at hidx
        exact .inr ⟨hidx, List.forall_mem_cons.mpr ⟨hp, hall⟩⟩

theorem lastIdx_none (h : lastIdx kind i idx params = none) :
    idx = none ∧ ∀ p ∈ params, p.kind ≠ kind := by
  induction params generalizing i idx with
  | nil => exact ⟨h, by simp⟩
  | cons p params ih =>
    rw [lastIdx] at h
    obtain ⟨hidx, hall⟩ := ih h
    by_cases hp : p.kind = kind
    · rw [if_pos hp] at hidx
      cases hidx
    · rw [if_neg hp] at hidx
      exact ⟨hidx, List.forall_mem_cons.mpr ⟨hp, hall⟩⟩

theorem lastIdx_iff
    (hunique : ∀ (i j : Nat) (p q : Param Expr), params[i]? = some p → params[j]? = some q →
      p.kind = kind → q.kind = kind → i = j) :
    lastIdx kind 0 none params = some k ↔ ∃ p, params[k]? = some p ∧ p.kind = kind := by
  constructor
  · intro h
    obtain ⟨p, -, hp, hkind⟩ | ⟨hnone, -⟩ := lastIdx_some h
    · exact ⟨p, hp, hkind⟩
    · cases hnone
  · rintro ⟨p, hp, hkind⟩
    cases hlast : lastIdx kind 0 none params with
    | none => exact absurd hkind ((lastIdx_none hlast).2 p (List.mem_of_getElem? hp))
    | some j =>
      obtain ⟨q, -, hq, hkind'⟩ | ⟨hnone, -⟩ := lastIdx_some hlast
      · rw [hunique j k q p hq hp hkind' hkind]
      · cases hnone

end LastIdx

namespace Signature

variable {Expr : Type} (sig : Signature Expr)

/-- How many parameters stand before the variadic ones: these take the positional arguments. -/
def leading : Nat := sig.params.findIdx fun p => p.kind != .regular

theorem leading_le : sig.leading ≤ sig.params.length := List.findIdx_le_length

variable {sig} {i : Nat} {p : Param Expr}

theorem varargIdx_iff : (registerFnMeta sig.params).varargIdx = some i ↔
    ∃ p, sig.params[i]? = some p ∧ p.kind = .varArg := lastIdx_iff sig.varArg_unique

theorem kwargIdx_iff : (registerFnMeta sig.params).kwargIdx = some i ↔
    ∃ p, sig.params[i]? = some p ∧ p.kind = .kwArg := by
  refine lastIdx_iff fun i j p q hp hq hkp hkq => ?_
  have hi := sig.kwArg_last i p hp hkp
  have hj := sig.kwArg_last j q hq hkq
  omega

theorem regular_of_lt (hi : i < sig.leading) (hp : sig.params[i]? = some p) :
    p.kind = .regular := by
  obtain ⟨hlt, rfl⟩ := List.getElem?_eq_some_iff.mp hp
  simpa using List.not_of_lt_findIdx hi

theorem varargIdx_ne (hp : sig.params[i]? = some p) (hkind : p.kind = .regular) :
    (registerFnMeta sig.params).varargIdx ≠ some i := by
  intro h
  obtain ⟨q, hq, hq'⟩ := varargIdx_iff.mp h
  cases hp.symm.trans hq
  rw [hkind] at hq'
  cases hq'

theorem kwargIdx_ne (hp : sig.params[i]? = some p) (hkind : p.kind = .regular) :
    (registerFnMeta sig.params).kwargIdx ≠ some i := by
  intro h
  obtain ⟨q, hq, hq'⟩ := kwargIdx_iff.mp h
  cases hp.symm.trans hq
  rw [hkind] at hq'
  cases hq'

/-- The first variadic parameter ends the leading ones. -/
theorem leading_eq (hp : sig.params[i]? = some p) (hkind : p.kind ≠ .regular)
    (hall : ∀ (j : Nat) (q : Param Expr), j < i → sig.params[j]? = some q → q.kind = .regular) :
    sig.leading = i := by
  obtain ⟨hlt, rfl⟩ := List.getElem?_eq_some_iff.mp hp
  refine (List.findIdx_eq hlt).mpr ⟨by simpa using hkind, fun j hj => ?_⟩
  simpa using hall j _ hj (List.getElem?_eq_getElem (Nat.lt_trans hj hlt))

/-- The parameters that take positional arguments end at `*args`, or else at `**kwargs`, or else at
the end. -/
theorem regularEnd_eq : ((registerFnMeta sig.params).varargIdx.or
    (registerFnMeta sig.params).kwargIdx).getD sig.params.length = sig.leading := by
  have hkinds : ∀ q : Param Expr, q.kind ≠ .varArg → q.kind ≠ .kwArg → q.kind = .regular := by
    intro q hvar hkw
    cases hkind : q.kind with
    | regular => rfl
    | varArg => exact absurd hkind hvar
    | kwArg => exact absurd hkind hkw
  cases hvar : (registerFnMeta sig.params).varargIdx with
  | some vi =>
    obtain ⟨p, hp, hkind⟩ := varargIdx_iff.mp hvar
    refine (leading_eq hp (by simp [hkind]) fun j q hj hq => hkinds q ?_ ?_).symm
    · intro hq'
      have := sig.varArg_unique j vi q p hq hp hq' hkind
      omega
    · intro hq'
      have hlast := sig.kwArg_last j q hq hq'
      have hlt := (List.getElem?_eq_some_iff.mp hp).1
      omega
  | none =>
    have hnone : ∀ q ∈ sig.params, q.kind ≠ .varArg := (lastIdx_none hvar).2
    cases hkw : (registerFnMeta sig.params).kwargIdx with
    | some ki =>
      obtain ⟨p, hp, hkind⟩ := kwargIdx_iff.mp hkw
      refine (leading_eq hp (by simp [hkind]) fun j q hj hq => hkinds q ?_ ?_).symm
      · exact hnone q (List.mem_of_getElem? hq)
      · intro hq'
        have hlast := sig.kwArg_last j q hq hq'
        have hlast' := sig.kwArg_last ki p hp hkind
        omega
    | none =>
      have hnone' : ∀ q ∈ sig.params, q.kind ≠ .kwArg := (lastIdx_none hkw).2
      refine (List.findIdx_eq_length.mpr fun q hq => ?_).symm
      simpa using hkinds q (hnone q hq) (hnone' q hq)

end Signature

section Slots

variable {Arg Expr Ty V Op : Type} {typing : Typing Expr Ty}
  {low : Lowering Arg Expr Ty V Op typing} {sig : Signature Expr} {paramTys : List Ty} {pos : List (Arg × Ty)}
  {kws : List (String × Arg × Ty)} {vars : String → Option V}

theorem paramNames_eq : (registerFnMeta sig.params).paramNames = sig.params.map (·.name) := rfl

/-- A name is found where its parameter stands. -/
theorem findIdx?_name {name : String} {i : Nat} :
    (sig.params.map (·.name)).findIdx? (· == name) = some i ↔
      ∃ p, sig.params[i]? = some p ∧ p.name = name := by
  rw [List.findIdx?_eq_some_iff_getElem]
  constructor
  · rintro ⟨hlt, hname, -⟩
    rw [List.length_map] at hlt
    exact ⟨sig.params[i], List.getElem?_eq_getElem hlt, by simpa using hname⟩
  · rintro ⟨p, hp, rfl⟩
    obtain ⟨hlt, rfl⟩ := List.getElem?_eq_some_iff.mp hp
    refine ⟨by simpa using hlt, by simp, fun j hj => ?_⟩
    have hne := List.pairwise_iff_getElem.mp sig.names_nodup j i (by simp; omega)
      (by simpa using hlt) hj
    simpa using hne

theorem set_map_range {f g : Nat → Option Op} {n m : Nat} {v : Option Op} (hm : g m = v)
    (h : ∀ i, i ≠ m → g i = f i) :
    ((List.range n).map f).set m v = (List.range n).map g := by
  refine List.ext_getElem (by simp) fun i hi hi' => ?_
  simp only [List.getElem_set, List.getElem_map, List.getElem_range]
  split
  next heq => rw [← heq, hm]
  next hne => exact (h i (Ne.symm hne)).symm

/-- The slots after the first `m` positional arguments. -/
theorem foldl_fillSlot (m : Nat) (hm : m ≤ sig.leading) :
    (List.range m).foldl (fillSlot low paramTys (registerFnMeta sig.params) pos)
        (List.replicate sig.params.length none, 0) =
      ((List.range sig.params.length).map fun i =>
        if i < m then (pos[i]?).map (coerceTo low paramTys i) else none, min m pos.length) := by
  induction m with
  | zero => simp
  | succ m ih =>
    have hle := sig.leading_le
    have hlt : m < sig.params.length := by omega
    have hp : sig.params[m]? = some sig.params[m] := List.getElem?_eq_getElem hlt
    have hkind := Signature.regular_of_lt (by omega) hp
    rw [List.range_succ, List.foldl_append, ih (by omega), List.foldl_cons, List.foldl_nil,
      fillSlot, if_neg (not_or.mpr ⟨Signature.varargIdx_ne hp hkind, Signature.kwargIdx_ne hp hkind⟩)]
    by_cases hpos : m < pos.length
    · have hget : pos[min m pos.length]? = some pos[m] := by
        rw [Nat.min_eq_left (by omega)]
        exact List.getElem?_eq_getElem hpos
      rw [hget]
      dsimp only
      rw [set_map_range (g := fun i => if i < m + 1 then (pos[i]?).map (coerceTo low paramTys i)
        else none)]
      · rw [show min m pos.length + 1 = min (m + 1) pos.length by omega]
      · rw [if_pos (by omega), List.getElem?_eq_getElem hpos, Option.map_some]
      · intro i hi
        split_ifs <;> first | rfl | omega
    · have hget : pos[min m pos.length]? = none := List.getElem?_eq_none (by omega)
      rw [hget]
      dsimp only
      rw [show min m pos.length = min (m + 1) pos.length by omega]
      refine congrArg (·, _) (List.map_congr_left fun i _ => ?_)
      split_ifs with hi hi'
      · rfl
      · omega
      · rw [List.getElem?_eq_none (by omega), Option.map_none]
      · rfl

/-- The parameter with the index `i` has this name. -/
def named (sig : Signature Expr) (i : Nat) (name : String) : Bool :=
  (sig.params[i]?).any (·.name == name)

theorem named_iff {i : Nat} {name : String} :
    named sig i name = true ↔ ∃ p, sig.params[i]? = some p ∧ p.name = name := by
  simp [named, Option.any_eq_true]

theorem fillKeyword_eq {f : Nat → Option Op} (kw : String × Arg × Ty) :
    fillKeyword low paramTys (registerFnMeta sig.params) sig.leading
        ((List.range sig.params.length).map f) kw =
      (List.range sig.params.length).map fun i =>
        if i < sig.leading ∧ named sig i kw.1 = true then some (coerceTo low paramTys i kw.2)
        else f i := by
  have hfound {i : Nat} : named sig i kw.1 = true ↔
      (sig.params.map (·.name)).findIdx? (· == kw.1) = some i := by
    rw [named_iff, findIdx?_name]
  unfold fillKeyword
  rw [paramNames_eq]
  cases hfind : (sig.params.map (·.name)).findIdx? (· == kw.1) with
  | none =>
    refine List.map_congr_left fun i _ => (if_neg fun h => ?_).symm
    rw [hfound, hfind] at h
    cases h.2
  | some pos =>
    dsimp only
    by_cases hlt : pos < sig.leading
    · obtain ⟨p, hp, -⟩ := findIdx?_name.mp hfind
      have hkind := Signature.regular_of_lt hlt hp
      rw [if_pos ⟨Signature.varargIdx_ne hp hkind, Signature.kwargIdx_ne hp hkind, hlt⟩]
      refine set_map_range (if_pos ⟨hlt, hfound.mpr hfind⟩) fun i hi => if_neg fun h => ?_
      rw [hfound, hfind, Option.some.injEq] at h
      exact hi h.2.symm
    · rw [if_neg fun h => hlt h.2.2]
      refine List.map_congr_left fun i _ => (if_neg fun h => ?_).symm
      rw [hfound, hfind, Option.some.injEq] at h
      exact hlt (h.2 ▸ h.1)

/-- The slots after the keyword arguments. -/
theorem foldl_fillKeyword {f : Nat → Option Op} (hdistinct : (kws.map (·.1)).Nodup) :
    kws.foldl (fillKeyword low paramTys (registerFnMeta sig.params) sig.leading)
        ((List.range sig.params.length).map f) =
      (List.range sig.params.length).map fun i =>
        if i < sig.leading then
          ((kws.find? fun kw => named sig i kw.1).map
            fun kw => coerceTo low paramTys i kw.2).or (f i)
        else f i := by
  induction kws generalizing f with
  | nil => simp
  | cons kw kws ih =>
    obtain ⟨hnew, hdistinct⟩ := List.nodup_cons.mp hdistinct
    rw [List.foldl_cons, fillKeyword_eq, ih hdistinct]
    refine List.map_congr_left fun i _ => ?_
    by_cases hlt : i < sig.leading
    · rw [if_pos hlt, if_pos hlt, List.find?_cons]
      cases hkw : named sig i kw.1 with
      | false =>
        rw [if_neg (by simp)]
      | true =>
        have hnone : kws.find? (fun kw => named sig i kw.1) = none := by
          refine List.find?_eq_none.mpr fun kw' hmem hkw' => hnew ?_
          obtain ⟨p, hp, hname⟩ := named_iff.mp hkw
          obtain ⟨p', hp', hname'⟩ := named_iff.mp hkw'
          cases hp.symm.trans hp'
          exact List.mem_map.mpr ⟨kw', hmem, hname'.symm.trans hname⟩
        rw [if_pos ⟨hlt, rfl⟩, hnone]
        rfl
    · rw [if_neg hlt, if_neg hlt, if_neg fun h => hlt h.1]

/-- What the slot of a parameter gets. -/
def packedAt (low : Lowering Arg Expr Ty V Op typing) (sig : Signature Expr) (paramTys : List Ty)
    (pos : List (Arg × Ty)) (kws : List (String × Arg × Ty)) (vars : String → Option V) (i : Nat)
    (p : Param Expr) : Op :=
  match p.kind with
  | .regular =>
    (if i < sig.leading then
      ((kws.find? fun kw => p.name == kw.1).map fun kw => coerceTo low paramTys i kw.2).or
        ((pos[i]?).map (coerceTo low paramTys i))
    else none).getD (defaultFor low paramTys vars i p.default)
  | .varArg => varArgs low (pos.drop sig.leading)
  | .kwArg => kwArgs low (kws.filter (isExtra (registerFnMeta sig.params) sig.leading i))

theorem getElem?_fillAt {l : List (Option Op)} {idx : Option Nat} {op : Nat → Op} {i : Nat}
    (hi : i < l.length) :
    (fillAt idx op l)[i]? = if idx = some i then some (some (op i)) else l[i]? := by
  cases idx with
  | none => simp [fillAt]
  | some k =>
    rw [fillAt, List.getElem?_set]
    by_cases hk : k = i
    · rw [if_pos hk, if_pos (hk ▸ hi), if_pos (congrArg some hk), hk]
    · rw [if_neg hk, if_neg fun h => hk (Option.some.inj h)]

theorem length_fillAt {l : List (Option Op)} {idx : Option Nat} {op : Nat → Op} :
    (fillAt idx op l).length = l.length := by
  cases idx with
  | none => rfl
  | some k => exact List.length_set

/-- Without keywords and variadic parameters the arguments are the positional ones, in order. -/
theorem packedAt_plain {args : List (CallArg Arg Ty)} {i : Nat} {p : Param Expr}
    {a : CallArg Arg Ty} (hkw : ∀ a ∈ args, a.kw.isNone = true) (hi : i < sig.leading) (hp : sig.params[i]? = some p)
    (ha : args[i]? = some a) :
    packedAt low sig paramTys (positional args) (keyword args) vars i p =
      coerceTo low paramTys i (a.arg, a.ty) := by
  have hpos : positional args = args.map fun a => (a.arg, a.ty) := by
    rw [positional, ← List.filterMap_eq_map]
    exact List.filterMap_congr fun a ha => if_pos (hkw a ha)
  have hkws : keyword args = [] := by
    refine List.filterMap_eq_nil_iff.mpr fun a ha => ?_
    rw [Option.isNone_iff_eq_none.mp (hkw a ha), Option.map_none]
  rw [packedAt, Signature.regular_of_lt hi hp]
  dsimp only
  rw [if_pos hi, hpos, hkws, List.find?_nil, Option.map_none, Option.none_or, List.getElem?_map, ha]
  rfl

theorem packFnCallArgs_eq {args : List (CallArg Arg Ty)}
    (hdistinct : ((keyword args).map (·.1)).Nodup) :
    packFnCallArgs low (some (registerFnMeta sig.params)) args paramTys vars =
      sig.params.mapIdx (packedAt low sig paramTys (positional args) (keyword args) vars) := by
  have hnames : (registerFnMeta sig.params).paramNames.length = sig.params.length :=
    List.length_map _
  have hend := sig.regularEnd_eq
  unfold packFnCallArgs
  dsimp only
  rw [hnames]
  split
  next hfast =>
    obtain ⟨hvar, hkwarg, hkw, hlen⟩ := hfast
    rw [Option.isNone_iff_eq_none.mp hvar, Option.isNone_iff_eq_none.mp hkwarg] at hend
    refine List.ext_getElem (by simpa using hlen) fun i hi hi' => ?_
    simp only [List.getElem_mapIdx]
    have hlt : i < sig.params.length := by simpa using hi'
    have hlead : i < sig.leading := by rwa [← hend]
    exact (packedAt_plain hkw hlead (List.getElem?_eq_getElem hlt)
      (List.getElem?_eq_getElem (by omega))).symm
  next =>
    rw [hend, Nat.min_eq_left sig.leading_le, foldl_fillSlot _ (Nat.le_refl _)]
    dsimp only
    rw [foldl_fillKeyword hdistinct]
    refine List.ext_getElem? fun i => ?_
    rw [List.getElem?_mapIdx, List.getElem?_mapIdx]
    by_cases hi : i < sig.params.length
    · have hp : sig.params[i]? = some sig.params[i] := List.getElem?_eq_getElem hi
      have hdefault : (registerFnMeta sig.params).defaultExprs.getD i none =
          sig.params[i].default := by
        simp [registerFnMeta, List.getD_eq_getElem?_getD, hp]
      rw [getElem?_fillAt (by simpa [length_fillAt] using hi), getElem?_fillAt (by simpa using hi),
        List.getElem?_map, List.getElem?_range hi, hp, hdefault]
      cases hkind : sig.params[i].kind with
      | regular =>
        rw [if_neg (Signature.kwargIdx_ne hp hkind), if_neg (Signature.varargIdx_ne hp hkind)]
        simp only [Option.map_some, packedAt, hkind, named, hp, Option.any_some]
        by_cases hlead : i < sig.leading
        · rw [if_pos hlead, if_pos hlead, if_pos hlead]
        · rw [if_neg hlead, if_neg hlead, if_neg hlead]
      | varArg =>
        have hvar := Signature.varargIdx_iff.mpr ⟨_, hp, hkind⟩
        have hkw : (registerFnMeta sig.params).kwargIdx ≠ some i := by
          intro h
          obtain ⟨q, hq, hq'⟩ := Signature.kwargIdx_iff.mp h
          cases hp.symm.trans hq
          rw [hkind] at hq'
          cases hq'
        have hdrop : (positional args).drop (min sig.leading (positional args).length) =
            (positional args).drop sig.leading := by
          by_cases hle : sig.leading ≤ (positional args).length
          · rw [Nat.min_eq_left hle]
          · rw [Nat.min_eq_right (by omega), List.drop_length, List.drop_eq_nil_of_le (by omega)]
        rw [if_neg hkw, if_pos hvar, hdrop]
        simp only [Option.map_some, Option.getD_some, packedAt, hkind]
      | kwArg =>
        rw [if_pos (Signature.kwargIdx_iff.mpr ⟨_, hp, hkind⟩)]
        simp only [Option.map_some, Option.getD_some, packedAt, hkind]
    · rw [List.getElem?_eq_none (by simp [length_fillAt]; omega),
        List.getElem?_eq_none (by omega)]
      rfl

end Slots

section Rule

variable {Arg Expr Ty V Op : Type} {typing : Typing Expr Ty}

/-- A keyword names no parameter but, perhaps, a variadic one. -/
def Signature.Extra (sig : Signature Expr) (name : String) : Prop :=
  ∀ p ∈ sig.params, p.kind = .regular → p.name ≠ name

instance (sig : Signature Expr) : DecidablePred sig.Extra := fun name =>
  inferInstanceAs (Decidable (∀ p ∈ sig.params, p.kind = .regular → p.name ≠ name))

/-- The calls that bind every parameter once: a keyword names a parameter that no positional
argument goes to, or nothing and there is `**kwargs`. -/
structure Accepts (sig : Signature Expr) (args : List (CallArg Arg Ty)) : Prop where
  distinct : ((keyword args).map (·.1)).Nodup
  room : (positional args).length ≤ sig.leading ∨ ∃ p ∈ sig.params, p.kind = .varArg
  keywords : ∀ kw ∈ keyword args,
    (∃ i p, sig.params[i]? = some p ∧ p.kind = .regular ∧ p.name = kw.1 ∧
      (sig.leading ≤ i ∨ (positional args).length ≤ i)) ∨
    sig.Extra kw.1 ∧ ∃ p ∈ sig.params, p.kind = .kwArg
  filled : ∀ i p, sig.params[i]? = some p → p.kind = .regular → p.default = none →
    i < sig.leading ∧ i < (positional args).length ∨ ∃ kw ∈ keyword args, kw.1 = p.name

/-- What the signature binds a parameter to. -/
def boundAt (low : Lowering Arg Expr Ty V Op typing) (sig : Signature Expr)
    (paramTys : List Ty) (pos : List (Arg × Ty)) (kws : List (String × Arg × Ty))
    (definition : String → Option V) (i : Nat) (p : Param Expr) : Op :=
  match p.kind with
  | .regular =>
    ((if i < sig.leading then (pos[i]?).map (coerceTo low paramTys i) else none).or
      ((kws.find? fun kw => p.name == kw.1).map fun kw => coerceTo low paramTys i kw.2)).getD
        (defaultFor low paramTys definition i p.default)
  | .varArg =>
    low.list ((pos.drop sig.leading).map fun a => low.coerce (low.operand a.1) a.2 typing.any)
  | .kwArg =>
    low.dict ((kws.filter fun kw => sig.Extra kw.1).flatMap fun kw =>
      [low.str kw.1, low.coerce (low.operand kw.2.1) kw.2.2 typing.any])

variable {sig : Signature Expr} {args : List (CallArg Arg Ty)} {paramTys : List Ty}
  {vars definition : String → Option V} {low : Lowering Arg Expr Ty V Op typing}

/-- An argument is given for the parameter. -/
def Given (sig : Signature Expr) (args : List (CallArg Arg Ty)) (i : Nat) (p : Param Expr) : Prop :=
  i < sig.leading ∧ i < (positional args).length ∨ ∃ kw ∈ keyword args, kw.1 = p.name

/-- The calls whose arguments all reach their parameters as they should. -/
structure Reached (typing : Typing Expr Ty) (sig : Signature Expr) (args : List (CallArg Arg Ty))
    (vars definition : String → Option V) : Prop where
  only : ∀ i p, sig.params[i]? = some p → p.kind = .regular → sig.leading ≤ i →
    ∀ kw ∈ keyword args, kw.1 ≠ p.name
  surplus : ∀ a ∈ (positional args).drop sig.leading, ¬typing.boxes a.2
  extra : ∀ kw ∈ keyword args, sig.Extra kw.1 → ¬typing.boxes kw.2.2
  defaults : ∀ i p e, sig.params[i]? = some p → p.kind = .regular → p.default = some e →
    ¬Given sig args i p → ∀ x ∈ typing.names e, vars x = definition x

theorem Signature.name_unique {i j : Nat} {p q : Param Expr} (hp : sig.params[i]? = some p)
    (hq : sig.params[j]? = some q) (hname : p.name = q.name) : i = j := by
  have hi := findIdx?_name.mpr ⟨p, hp, hname⟩
  have hj := findIdx?_name.mpr ⟨q, hq, rfl⟩
  exact Option.some.inj (hi.symm.trans hj)

/-- No keyword names a parameter that a positional argument goes to. -/
theorem Accepts.find?_none (h : Accepts sig args) {i : Nat} {p : Param Expr}
    (hp : sig.params[i]? = some p) (hi : i < sig.leading) (hpos : i < (positional args).length) :
    (keyword args).find? (fun kw => p.name == kw.1) = none := by
  refine List.find?_eq_none.mpr fun kw hmem hname => ?_
  have hname' : p.name = kw.1 := by simpa using hname
  obtain ⟨j, q, hq, -, hqname, hj⟩ | ⟨hextra, -⟩ := h.keywords kw hmem
  · have hij := Signature.name_unique hp hq (hname'.trans hqname.symm)
    omega
  · exact hextra p (List.mem_of_getElem? hp) (Signature.regular_of_lt hi hp) hname'

theorem find?_none_of_not_given {i : Nat} {p : Param Expr} (h : ¬Given sig args i p) :
    (keyword args).find? (fun kw => p.name == kw.1) = none := by
  refine List.find?_eq_none.mpr fun kw hmem hname => h (.inr ⟨kw, hmem, ?_⟩)
  simpa using Eq.symm (by simpa using hname : p.name = kw.1)

/-- What goes to the dict of `**kwargs`, where no keyword names a parameter behind `*args`. -/
theorem isExtra_iff
    (honly : ∀ i p, sig.params[i]? = some p → p.kind = .regular → sig.leading ≤ i →
      ∀ kw ∈ keyword args, kw.1 ≠ p.name)
    {ki : Nat} {pk : Param Expr} (hpk : sig.params[ki]? = some pk) (hkind : pk.kind = .kwArg)
    {kw : String × Arg × Ty} (hmem : kw ∈ keyword args) :
    isExtra (registerFnMeta sig.params) sig.leading ki kw = true ↔ sig.Extra kw.1 := by
  unfold isExtra
  rw [paramNames_eq]
  constructor
  · intro h p hp hregular hname
    obtain ⟨j, hj⟩ := List.mem_iff_getElem?.mp hp
    rw [findIdx?_name.mpr ⟨p, hj, hname⟩] at h
    simp only [Bool.or_eq_true, beq_iff_eq, decide_eq_true_eq] at h
    obtain rfl | hle := h
    · cases hj.symm.trans hpk
      rw [hregular] at hkind
      cases hkind
    · exact honly j p hj hregular hle kw hmem hname.symm
  · intro h
    cases hfind : (sig.params.map (·.name)).findIdx? (· == kw.1) with
    | none => rfl
    | some j =>
      obtain ⟨p, hp, hname⟩ := findIdx?_name.mp hfind
      have hle : sig.leading ≤ j := by
        by_contra hlt
        exact h p (List.mem_of_getElem? hp) (Signature.regular_of_lt (by omega) hp) hname
      simp [hle]

theorem defaultFor_congr {i : Nat} {p : Param Expr}
    (h : ∀ e, p.default = some e → ∀ x ∈ typing.names e, vars x = definition x) :
    defaultFor low paramTys vars i p.default = defaultFor low paramTys definition i p.default := by
  cases hdefault : p.default with
  | none => rfl
  | some e => rw [defaultFor, defaultFor, low.lower_congr e vars definition (h e hdefault)]

theorem packedAt_eq (haccepts : Accepts sig args) (h : Reached typing sig args vars definition)
    {i : Nat} {p : Param Expr} (hp : sig.params[i]? = some p) :
    packedAt low sig paramTys (positional args) (keyword args) vars i p =
      boundAt low sig paramTys (positional args) (keyword args) definition i p := by
  unfold packedAt boundAt
  cases hkind : p.kind with
  | regular =>
    dsimp only
    by_cases hi : i < sig.leading
    · rw [if_pos hi, if_pos hi]
      by_cases hpos : i < (positional args).length
      · rw [haccepts.find?_none hp hi hpos, List.getElem?_eq_getElem hpos]
        rfl
      · rw [List.getElem?_eq_none (by omega), Option.map_none, Option.or_none, Option.none_or]
        cases hfind : (keyword args).find? (fun kw => p.name == kw.1) with
        | some kw => rfl
        | none =>
          refine defaultFor_congr fun e he => h.defaults i p e hp hkind he ?_
          rintro (⟨-, hlt⟩ | ⟨kw, hmem, hname⟩)
          · exact hpos hlt
          · exact List.find?_eq_none.mp hfind kw hmem (by simpa using hname.symm)
    · have hnone : (keyword args).find? (fun kw => p.name == kw.1) = none := by
        refine List.find?_eq_none.mpr fun kw hmem hname => ?_
        exact h.only i p hp hkind (by omega) kw hmem (by simpa using Eq.symm (by simpa using hname))
      rw [if_neg hi, if_neg hi, hnone]
      refine defaultFor_congr fun e he => h.defaults i p e hp hkind he ?_
      rintro (⟨hlt, -⟩ | ⟨kw, hmem, hname⟩)
      · exact hi hlt
      · exact h.only i p hp hkind (by omega) kw hmem hname
  | varArg =>
    refine congrArg low.list (List.map_congr_left fun a ha => ?_)
    exact (low.coerce_any _ _ (h.surplus a ha)).symm
  | kwArg =>
    have hfilter : (keyword args).filter (isExtra (registerFnMeta sig.params) sig.leading i) =
        (keyword args).filter fun kw => sig.Extra kw.1 := by
      refine List.filter_congr fun kw hmem => ?_
      rw [Bool.eq_iff_iff, isExtra_iff h.only hp hkind hmem, decide_eq_true_iff]
    dsimp only
    rw [hfilter, kwArgs]
    refine congrArg low.dict (List.flatMap_congr fun kw hmem => ?_)
    obtain ⟨hmem, hextra⟩ := List.mem_filter.mp hmem
    rw [low.coerce_any _ _ (h.extra kw hmem (by simpa using hextra))]

end Rule

section Terms

variable {Arg Expr Ty V : Type} {typing : Typing Expr Ty} {sig : Signature Expr}
  {args : List (CallArg Arg Ty)} {paramTys : List Ty} {vars definition : String → Option V}

/-- Operands that say how they were made. -/
inductive Term (Arg Expr Ty V : Type) where
  | arg (a : Arg)
  | coerced (t : Term Arg Expr Ty V) (src dst : Ty)
  | lowered (e : Expr) (locals : List (Option V))
  | list (ts : List (Term Arg Expr Ty V))
  | dict (ts : List (Term Arg Expr Ty V))
  | str (s : String)
  | int (n : Int)

/-- The operand is an argument, whatever its representation. -/
def Term.isArg : Term Arg Expr Ty V → Bool
  | .arg _ => true
  | .coerced t _ _ => t.isArg
  | _ => false

open Classical in
/-- The lowering that leaves nothing out of its operands. -/
noncomputable def written (typing : Typing Expr Ty) :
    Lowering Arg Expr Ty V (Term Arg Expr Ty V) typing where
  operand := .arg
  coerce op src dst := if dst = typing.any ∧ ¬typing.boxes src then op else .coerced op src dst
  lowerExprAsCopy vars e := .lowered e ((typing.names e).map vars)
  list := .list
  dict := .dict
  str := .str
  int := .int
  coerce_any _ _ h := if_pos ⟨rfl, h⟩
  lower_congr e _ _ h := congrArg (Term.lowered e) (List.map_congr_left h)

theorem coerce_pos (t : Term Arg Expr Ty V) {src dst : Ty}
    (h : dst = typing.any ∧ ¬typing.boxes src) :
    (written typing).coerce t src dst = t := if_pos h

theorem coerce_neg (t : Term Arg Expr Ty V) {src dst : Ty}
    (h : ¬(dst = typing.any ∧ ¬typing.boxes src)) :
    (written typing).coerce t src dst = .coerced t src dst := if_neg h

theorem isArg_coerce (t : Term Arg Expr Ty V) (src dst : Ty) :
    ((written typing).coerce t src dst).isArg = t.isArg := by
  by_cases h : dst = typing.any ∧ ¬typing.boxes src
  · rw [coerce_pos t h]
  · rw [coerce_neg t h, Term.isArg]

theorem coerce_inj {t t' : Term Arg Expr Ty V} {src dst : Ty}
    (h : (written typing).coerce t src dst = (written typing).coerce t' src dst) : t = t' := by
  by_cases hany : dst = typing.any ∧ ¬typing.boxes src
  · rwa [coerce_pos t hany, coerce_pos t' hany] at h
  · rw [coerce_neg t hany, coerce_neg t' hany] at h
    exact (Term.coerced.inj h).1

theorem not_boxes_of_eq {a : Arg} {ty : Ty}
    (h : (Term.arg a : Term Arg Expr Ty V) = (written typing).coerce (.arg a) ty typing.any) :
    ¬typing.boxes ty := by
  intro hboxes
  rw [coerce_neg _ fun hand => hand.2 hboxes] at h
  cases h

theorem isArg_defaultFor (i : Nat) (default : Option Expr) :
    (defaultFor (written typing : Lowering Arg Expr Ty V _ typing) paramTys vars i default).isArg = false := by
  cases default with
  | none => rfl
  | some e => exact isArg_coerce _ _ _

theorem locals_of_defaultFor {i : Nat} {e : Expr}
    (h : defaultFor (written typing : Lowering Arg Expr Ty V _ typing) paramTys vars i (some e) =
      defaultFor (written typing) paramTys definition i (some e)) :
    ∀ x ∈ typing.names e, vars x = definition x := by
  have hmap := (Term.lowered.inj (coerce_inj h)).2
  exact List.map_inj_left.mp hmap

theorem flatMap_pair_inj {α β : Type} {f g h : α → β} {l : List α}
    (heq : (l.flatMap fun x => [f x, g x]) = l.flatMap fun x => [f x, h x]) :
    ∀ x ∈ l, g x = h x := by
  induction l with
  | nil => simp
  | cons x l ih =>
    simp only [List.flatMap_cons, List.cons_append, List.nil_append, List.cons.injEq,
      true_and] at heq
    exact List.forall_mem_cons.mpr ⟨heq.1, ih heq.2⟩

variable (paramTys) in
/-- Where the operands show it, arguments that are bound as they should be have reached their
parameters. -/
theorem reached_of_eq (haccepts : Accepts sig args)
    (h : ∀ i p, sig.params[i]? = some p →
      packedAt (written typing) sig paramTys (positional args) (keyword args) vars i p =
        boundAt (written typing) sig paramTys (positional args) (keyword args) definition i p) :
    Reached typing sig args vars definition := by
  have honly : ∀ i p, sig.params[i]? = some p → p.kind = .regular → sig.leading ≤ i →
      ∀ kw ∈ keyword args, kw.1 ≠ p.name := by
    intro i p hp hkind hle kw hmem hname
    have heq := h i p hp
    have hsome : ((keyword args).find? fun kw => p.name == kw.1).isSome = true :=
      List.find?_isSome.mpr ⟨kw, hmem, by simpa using hname.symm⟩
    obtain ⟨kw', hfind⟩ := Option.isSome_iff_exists.mp hsome
    unfold packedAt boundAt at heq
    rw [hkind] at heq
    dsimp only at heq
    rw [if_neg (by omega), if_neg (by omega), hfind] at heq
    have harg := congrArg Term.isArg heq
    rw [Option.getD_none, isArg_defaultFor] at harg
    have hisArg := @isArg_coerce Arg Expr Ty V typing ((written typing).operand kw'.2.1) kw'.2.2
      (paramTys.getD i typing.any)
    exact absurd (hisArg.symm.trans harg.symm) (by simp [Term.isArg, written])
  refine ⟨honly, ?_, ?_, ?_⟩
  · intro a ha
    obtain hroom | ⟨p, hp, hkind⟩ := haccepts.room
    · rw [List.drop_eq_nil_of_le hroom] at ha
      cases ha
    · obtain ⟨i, hi⟩ := List.mem_iff_getElem?.mp hp
      have heq := h i p hi
      unfold packedAt boundAt at heq
      rw [hkind] at heq
      exact not_boxes_of_eq (List.map_inj_left.mp (Term.list.inj heq) a ha)
  · intro kw hmem hextra
    obtain ⟨i, p, hp, hkind, hname, -⟩ | ⟨-, p, hp, hkind⟩ := haccepts.keywords kw hmem
    · exact absurd hname (hextra p (List.mem_of_getElem? hp) hkind)
    · obtain ⟨i, hi⟩ := List.mem_iff_getElem?.mp hp
      have heq := h i p hi
      have hfilter : (keyword args).filter (isExtra (registerFnMeta sig.params) sig.leading i) =
          (keyword args).filter fun kw => sig.Extra kw.1 := by
        refine List.filter_congr fun kw hmem => ?_
        rw [Bool.eq_iff_iff, isExtra_iff honly hi hkind hmem, decide_eq_true_iff]
      unfold packedAt boundAt at heq
      rw [hkind] at heq
      dsimp only at heq
      rw [hfilter] at heq
      have hpair := flatMap_pair_inj (Term.dict.inj heq)
      exact not_boxes_of_eq (hpair kw (List.mem_filter.mpr ⟨hmem, by simpa using hextra⟩))
  · intro i p e hp hkind he hgiven
    have heq := h i p hp
    unfold packedAt boundAt at heq
    rw [hkind] at heq
    dsimp only at heq
    rw [find?_none_of_not_given hgiven, he] at heq
    by_cases hi : i < sig.leading
    · have hpos : (positional args)[i]? = none :=
        List.getElem?_eq_none (by by_contra hlt; exact hgiven (.inl ⟨hi, by omega⟩))
      rw [if_pos hi, if_pos hi, hpos] at heq
      exact locals_of_defaultFor heq
    · rw [if_neg hi, if_neg hi] at heq
      exact locals_of_defaultFor heq

end Terms

section Calls

variable {Arg Expr Ty V : Type} {typing : Typing Expr Ty} {sig : Signature Expr}
  {args : List (CallArg Arg Ty)} {paramTys : List Ty} {vars definition : String → Option V}

/-- Types that `Any` never boxes, and expressions without names. -/
def plain : Typing Unit Unit := ⟨(), fun _ => False, fun _ => (), fun _ => []⟩

/-- `fn f(a, b = ...)`. -/
def withDefault : Signature Unit where
  params := [⟨"a", .regular, none⟩, ⟨"b", .regular, some ()⟩]
  names_nodup := by decide
  varArg_unique i j p q hp hq hkp hkq := by
    match i with
    | 0 =>
      cases hp
      cases hkp
    | 1 =>
      cases hp
      cases hkp
    | i + 2 => cases hp
  kwArg_last i p hp hkp := by
    match i with
    | 0 =>
      cases hp
      cases hkp
    | 1 =>
      cases hp
      cases hkp
    | i + 2 => cases hp

/-- `fn f(*args, k = ...)`. -/
def withKeywordOnly : Signature Unit where
  params := [⟨"args", .varArg, none⟩, ⟨"k", .regular, some ()⟩]
  names_nodup := by decide
  varArg_unique i j p q hp hq hkp hkq := by
    have hfirst : ∀ (i : Nat) (p : Param Unit), [(⟨"args", .varArg, none⟩ : Param Unit),
        ⟨"k", .regular, some ()⟩][i]? = some p → p.kind = .varArg → i = 0 := by
      intro i p hp hkp
      match i with
      | 0 => rfl
      | 1 =>
        cases hp
        cases hkp
      | i + 2 => cases hp
    rw [hfirst i p hp hkp, hfirst j q hq hkq]
  kwArg_last i p hp hkp := by
    match i with
    | 0 =>
      cases hp
      cases hkp
    | 1 => rfl
    | i + 2 => cases hp

end Calls

end CallArgs

end Olive
