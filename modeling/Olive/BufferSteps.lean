import Olive.BufferOwners

/-! What each step of a buffer does to the bytes of all buffers and to the references. -/

namespace Olive

namespace Buffers

open ByteLists

section Objects

variable {loose loose' : Loose} {σ : Heap} {py : Word} {o o' : PyBytes}

/-- The references of an object change, not its bytes. -/
theorem Inv.keep (h : Inv loose σ) (ho : σ.objects py = some o) (o' : PyBytes) (hparts : o'.parts = o.parts)
    (hlive : 0 < o'.refs)
    (hcount : o'.refs + o.foreign + loose.count py = o.refs + o'.foreign + loose'.count py)
    (hother : ∀ q, q ≠ py → loose'.count q = loose.count q) (hloose : loose'.parts = loose.parts) :
    Inv loose' (σ.keep py (some o')) := by
  have hself : (σ.keep py (some o')).objects py = some o' := Function.update_self ..
  have hne {q : Word} (hq : q ≠ py) : (σ.keep py (some o')).objects q = σ.objects q :=
    Function.update_of_ne hq _ _
  have hregion : ∀ owner, region loose' (σ.keep py (some o')) owner = region loose σ owner := by
    intro owner
    cases owner with
    | buffer buf => rfl
    | loose => exact hloose
    | object q =>
      show ((σ.keep py (some o')).objects q).map PyBytes.parts = (σ.objects q).map PyBytes.parts
      by_cases hq : q = py
      · rw [hq, hself, ho, Option.map_some, Option.map_some, hparts]
      · rw [hne hq]
  constructor
  · intro owner v hv
    rw [hregion] at hv
    obtain ⟨hroom, hnull, hsmall, hblock⟩ := h.holds owner v hv
    exact ⟨hroom, hnull, hsmall, hblock⟩
  · intro owner owner' v v' hv hv'
    rw [hregion] at hv hv'
    exact h.apart owner owner' v v' hv hv'
  · intro buf b hb
    obtain ⟨hbuf, hback⟩ := h.slots buf b hb
    refine ⟨hbuf, fun hpy => ?_⟩
    obtain ⟨obj, hobject, hptr, hlen⟩ := hback hpy
    by_cases hq : b.py = py
    · rw [hq, ho] at hobject
      cases hobject
      exact ⟨o', by rw [hq]; exact hself, by rw [hparts]; exact hptr, by rw [hparts]; exact hlen⟩
    · exact ⟨obj, (hne hq).trans hobject, hptr, hlen⟩
  · intro q obj hobj
    by_cases hq : q = py
    · rw [hq, hself] at hobj
      cases hobj
      obtain ⟨hnull, hroom, -, holders, hmem, hrefs⟩ := h.counted py o ho
      rw [hq]
      refine ⟨hnull, by rw [hparts]; exact hroom, hlive, holders, hmem, ?_⟩
      omega
    · rw [hne hq] at hobj
      obtain ⟨hnull, hroom, hlive', holders, hmem, hrefs⟩ := h.counted q obj hobj
      refine ⟨hnull, hroom, hlive', holders, hmem, ?_⟩
      rw [hother q hq]
      exact hrefs

theorem payload_keep {x : Option PyBytes} {q : Word} (hq : q ≠ py) :
    payload (σ.keep py x) q = payload σ q := by
  have hne : (σ.keep py x).objects q = σ.objects q := Function.update_of_ne hq _ _
  unfold payload
  rw [hne]
  rfl

/-- The bytes of an object do not depend on its references. -/
theorem payload_keep_parts (ho : σ.objects py = some o) (o' : PyBytes) (hparts : o'.parts = o.parts)
    (q : Word) : payload (σ.keep py (some o')) q = payload σ q := by
  by_cases hq : q = py
  · have hself : (σ.keep py (some o')).objects py = some o' := Function.update_self ..
    unfold payload
    rw [hq, hself, ho]
    show slice _ o'.parts.ptr o'.parts.len = _
    rw [hparts]
    rfl
  · exact payload_keep hq

theorem shared_keep (ho : σ.objects py = some o) (hparts : o'.parts = o.parts)
    (hforeign : o'.foreign = o.foreign) : Shared σ (σ.keep py (some o')) where
  kept q obj hobj := by
    have hsame := payload_keep_parts ho o' hparts q
    by_cases hq : q = py
    · have hself : (σ.keep py (some o')).objects py = some o' := Function.update_self ..
      rw [hq, hself] at hobj
      cases hobj
      exact ⟨o, by rw [hq]; exact ho, hforeign, hsame⟩
    · have hne : (σ.keep py (some o')).objects q = σ.objects q := Function.update_of_ne hq _ _
      rw [hne] at hobj
      exact ⟨obj, hobj, rfl, hsame⟩
  foreign q obj hobj _ := by
    by_cases hq : q = py
    · rw [hq]
      exact ⟨o', Function.update_self ..⟩
    · exact ⟨obj, (Function.update_of_ne hq _ _).trans hobj⟩

/-- The last reference is given back: no buffer borrows from the object. -/
theorem Inv.forget (h : Inv (.ref py) σ) (ho : σ.objects py = some o) (hrefs : o.refs ≤ 1) :
    Inv .nothing ((σ.keep py none).store o.parts.ptr none) ∧
      contents ((σ.keep py none).store o.parts.ptr none) = contents σ ∧
        Shared σ ((σ.keep py none).store o.parts.ptr none) := by
  obtain ⟨hnull, hroom, hlive, holders, hmem, hcount⟩ := h.counted py o ho
  have hone : (Loose.ref py).count py = 1 := if_pos rfl
  have hnobody : ∀ buf b, σ.slots buf = some b → b.py ≠ py := by
    intro buf b hb hpy
    have hin : buf ∈ holders := (hmem buf).mpr ⟨b, hb, hpy⟩
    have hpos := Finset.card_pos.mpr ⟨buf, hin⟩
    omega
  have hforeign : o.foreign = 0 := by omega
  have hself : (σ.keep py none).objects py = none := Function.update_self ..
  have hne {q : Word} (hq : q ≠ py) : (σ.keep py none).objects q = σ.objects q :=
    Function.update_of_ne hq _ _
  have hown : region (.ref py) σ (.object py) = some o.parts := by
    show (σ.objects py).map PyBytes.parts = _
    rw [ho]
    rfl
  have hregion : ∀ owner v, region .nothing (σ.keep py none) owner = some v →
      owner ≠ .object py ∧ region (.ref py) σ owner = some v := by
    intro owner v hv
    cases owner with
    | buffer buf => exact ⟨fun he => (nomatch he), hv⟩
    | loose => cases hv
    | object q =>
      have hq : q ≠ py := by
        rintro rfl
        have hv' : ((σ.keep q none).objects q).map PyBytes.parts = some v := hv
        rw [hself] at hv'
        cases hv'
      refine ⟨fun he => hq (Owner.object.inj he), ?_⟩
      have hv' : ((σ.keep py none).objects q).map PyBytes.parts = some v := hv
      rw [hne hq] at hv'
      exact hv'
  have hkept : Inv .nothing (σ.keep py none) := by
    constructor
    · intro owner v hv
      obtain ⟨hroom', hnull', hsmall, hblock⟩ := h.holds owner v (hregion owner v hv).2
      exact ⟨hroom', hnull', hsmall, hblock⟩
    · intro owner owner' v v' hv hv'
      exact h.apart owner owner' v v' (hregion owner v hv).2 (hregion owner' v' hv').2
    · intro buf b hb
      obtain ⟨hbuf, hback⟩ := h.slots buf b hb
      refine ⟨hbuf, fun hpy => ?_⟩
      obtain ⟨obj, hobject, hptr, hlen⟩ := hback hpy
      exact ⟨obj, (hne (hnobody buf b hb)).trans hobject, hptr, hlen⟩
    · intro q obj hobj
      have hq : q ≠ py := by
        rintro rfl
        rw [hself] at hobj
        cases hobj
      rw [hne hq] at hobj
      obtain ⟨hnull', hroom', hlive', holders', hmem', hrefs'⟩ := h.counted q obj hobj
      refine ⟨hnull', hroom', hlive', holders', hmem', ?_⟩
      rw [show (Loose.ref py).count q = 0 from if_neg (Ne.symm hq)] at hrefs'
      exact hrefs'
  have hclear : ∀ owner v, region .nothing (σ.keep py none) owner = some v → 0 < v.cap →
      v.ptr ≠ o.parts.ptr := by
    intro owner v hv hcap
    obtain ⟨hother, hv'⟩ := hregion owner v hv
    exact h.clear_own hown hroom owner v hv' hcap hother
  obtain ⟨hcontents, hshared⟩ := hkept.untouched .loose none
    (fun owner v hv hcap _ => hclear owner v hv hcap) fun q he => nomatch he
  refine ⟨hkept.store_clear none hclear, ?_, ?_⟩
  · funext buf
    exact hcontents buf fun he => nomatch he
  · refine Shared.trans ⟨?_, ?_⟩ hshared
    · intro q obj hobj
      have hq : q ≠ py := by
        rintro rfl
        rw [hself] at hobj
        cases hobj
      rw [hne hq] at hobj
      exact ⟨obj, hobj, rfl, payload_keep hq⟩
    · intro q obj hobj hpos
      have hq : q ≠ py := by
        rintro rfl
        rw [ho] at hobj
        cases hobj
        omega
      exact ⟨obj, (hne hq).trans hobj⟩

/-- A loose reference is given back. -/
theorem release_done (h : Inv (.ref py) σ) (ho : σ.objects py = some o) (hpy : py ≠ 0) :
    ∃ σ', olivePyBackingRelease σ py = .ok σ' ∧ Inv .nothing σ' ∧ contents σ' = contents σ ∧
      Shared σ σ' ∧ σ'.slots = σ.slots := by
  unfold olivePyBackingRelease
  rw [if_neg hpy, ho]
  show ∃ σ', (.ok (if o.refs ≤ 1 then (σ.keep py none).store o.parts.ptr none
    else σ.keep py (some { o with refs := o.refs - 1 })) : Outcome Heap) = .ok σ' ∧ _
  have hone : (Loose.ref py).count py = 1 := if_pos rfl
  split_ifs with hlast
  · obtain ⟨hinv, hcontents, hshared⟩ := h.forget ho hlast
    exact ⟨_, rfl, hinv, hcontents, hshared, rfl⟩
  · refine ⟨_, rfl, ?_, rfl, shared_keep ho rfl rfl, rfl⟩
    refine h.keep ho { o with refs := o.refs - 1 } rfl ?_ ?_ ?_ rfl
    · show 0 < o.refs - 1
      omega
    · show o.refs - 1 + o.foreign + (Loose.ref py).count py = o.refs + o.foreign + 0
      omega
    · intro q hq
      exact (if_neg (Ne.symm hq)).symm

theorem incref_done (h : Inv .nothing σ) (ho : σ.objects py = some o) (hpy : py ≠ 0) :
    ∃ σ', olivePyBackingIncref σ py = .ok σ' ∧ Inv (.ref py) σ' ∧ contents σ' = contents σ ∧
      Shared σ σ' ∧ σ'.slots = σ.slots ∧ σ'.objects py = some { o with refs := o.refs + 1 } ∧
      payload σ' py = payload σ py := by
  have hone : (Loose.ref py).count py = 1 := if_pos rfl
  have hself : (σ.keep py (some { o with refs := o.refs + 1 })).objects py =
      some { o with refs := o.refs + 1 } := Function.update_self ..
  have hshared : Shared σ (σ.keep py (some { o with refs := o.refs + 1 })) := shared_keep ho rfl rfl
  unfold olivePyBackingIncref
  rw [if_neg hpy, ho]
  obtain ⟨-, -, -, hbytes⟩ := hshared.kept py _ hself
  refine ⟨_, rfl, ?_, rfl, hshared, rfl, hself, hbytes⟩
  refine h.keep ho { o with refs := o.refs + 1 } rfl (Nat.succ_pos _) ?_ ?_ rfl
  · show o.refs + 1 + o.foreign + 0 = o.refs + o.foreign + (Loose.ref py).count py
    omega
  · intro q hq
    exact if_neg (Ne.symm hq)

end Objects

section Headers

variable {rt : Runtime} {loose : Loose} {σ₀ σ : Heap} {buf : Word} {b : OliveBytes} {bytes data : List UInt8}
  {v : Parts} {x : Option (List UInt8)}

/-- What an operation leaves that gives the buffer at `buf` the bytes `x`. -/
structure Done (σ : Heap) (buf : Word) (x : Option (List UInt8)) (σ' : Heap) : Prop where
  inv : Inv .nothing σ'
  contents : contents σ' = Function.update (contents σ) buf x
  shared : Shared σ σ'

theorem Done.trans {σ' σ'' : Heap} {x' : Option (List UInt8)} (h : Done σ buf x σ') (h' : Done σ' buf x' σ'') :
    Done σ buf x' σ'' where
  inv := h'.inv
  contents := by
    rw [h'.contents, h.contents, Function.update_idem]
  shared := h.shared.trans h'.shared

theorem Done.self (h : Inv .nothing σ) : Done σ buf (Buffers.contents σ buf) σ :=
  ⟨h, (Function.update_eq_self buf _).symm, Shared.refl σ⟩

theorem Done.at {σ' : Heap} (h : Done σ buf x σ') : Buffers.contents σ' buf = x := by
  rw [h.contents, Function.update_self]

theorem put_put (o o' : Option OliveBytes) : (σ.put buf o).put buf o' = σ.put buf o' := by
  unfold Heap.put
  simp only [Function.update_idem]

theorem put_self (hb : σ.slots buf = some b) : σ.put buf (some b) = σ := by
  unfold Heap.put
  rw [← hb, Function.update_eq_self]

theorem slots_put (o : Option OliveBytes) : (σ.put buf o).slots buf = o :=
  Function.update_self ..

theorem header_of (hb : σ.slots buf = some b) : σ.header buf = .ok b := by
  unfold Heap.header
  rw [hb]
  rfl

theorem contents_of (hb : σ.slots buf = some b) : contents σ buf = slice σ b.ptr b.len := by
  unfold contents
  rw [hb]
  rfl

/-- A header with a vector, in a slot that had a reference to give back, or none. -/
theorem Inv.give (h : Inv (.vec v) σ) (loose' : Loose) (hbuf : buf ≠ 0) (hparts : loose'.parts = none)
    (hcount : ∀ py, py ≠ 0 → loose'.count py = held (σ.slots buf) py) :
    Inv loose' (σ.put buf (some { toParts := v, py := 0 })) := by
  refine h.put (Equiv.swap (.buffer buf) .loose) (Equiv.injective _) ?_ ?_ ?_
  · intro owner w hw
    right
    by_cases hself : owner = .buffer buf
    · rw [hself, Equiv.swap_apply_left]
      rw [hself] at hw
      have hw' : ((σ.put buf (some { toParts := v, py := 0 })).slots buf).bind OliveBytes.own = some w := hw
      rw [slots_put] at hw'
      cases hw'
      rfl
    · have hloose : owner ≠ .loose := by
        rintro rfl
        have hw' : loose'.parts = some w := hw
        rw [hparts] at hw'
        cases hw'
      rw [Equiv.swap_apply_of_ne_of_ne hself hloose]
      cases owner with
      | loose => exact absurd rfl hloose
      | object py => exact hw
      | buffer y =>
        have hy : y ≠ buf := fun he => hself (congrArg Owner.buffer he)
        have hw' : ((σ.put buf (some { toParts := v, py := 0 })).slots y).bind OliveBytes.own = some w := hw
        rw [show (σ.put buf (some { toParts := v, py := 0 })).slots y = σ.slots y from
          Function.update_of_ne hy _ _] at hw'
        exact hw'
  · intro py hpy
    rw [hcount py hpy]
    show (if decide (0 = py) = true then 1 else 0) + _ = _ + 0
    rw [if_neg (by rw [decide_eq_true_iff]; exact Ne.symm hpy)]
    omega
  · intro c hc
    cases hc
    exact ⟨hbuf, fun hpy => absurd rfl hpy⟩

/-- A header loses its vector. -/
theorem Inv.take (h : Inv .nothing σ) (hb : σ.slots buf = some b) (hpy : b.py = 0) :
    Inv (.vec b.toParts) (σ.put buf (some { ptr := 0, len := 0, cap := 0, py := b.py })) := by
  refine h.put (Equiv.swap (.buffer buf) .loose) (Equiv.injective _) ?_ ?_ ?_
  · intro owner w hw
    by_cases hself : owner = .buffer buf
    · left
      rw [hself] at hw
      have hw' : ((σ.put buf (some { ptr := 0, len := 0, cap := 0, py := b.py })).slots buf).bind
        OliveBytes.own = some w := hw
      rw [slots_put, Option.bind_some] at hw'
      unfold OliveBytes.own at hw'
      rw [if_pos hpy] at hw'
      cases hw'
      exact ⟨rfl, rfl⟩
    · right
      cases owner with
      | loose =>
        cases hw
        rw [Equiv.swap_apply_right]
        show (σ.slots buf).bind OliveBytes.own = _
        rw [hb]
        exact if_pos hpy
      | object py =>
        have hloose : Owner.object py ≠ .loose := fun he => nomatch he
        rw [Equiv.swap_apply_of_ne_of_ne hself hloose]
        exact hw
      | buffer y =>
        have hy : y ≠ buf := fun he => hself (congrArg Owner.buffer he)
        have hloose : Owner.buffer y ≠ .loose := fun he => nomatch he
        rw [Equiv.swap_apply_of_ne_of_ne hself hloose]
        have hw' : ((σ.put buf (some { ptr := 0, len := 0, cap := 0, py := b.py })).slots y).bind
          OliveBytes.own = some w := hw
        rw [show (σ.put buf (some { ptr := 0, len := 0, cap := 0, py := b.py })).slots y = σ.slots y from
          Function.update_of_ne hy _ _] at hw'
        exact hw'
  · intro py _
    rw [hb]
    rfl
  · intro c hc
    cases hc
    exact ⟨(h.slots buf b hb).1, fun hne => absurd hpy hne⟩

/-- A header that has no block of its own changes to another one, or goes. -/
theorem Inv.reput {loose' : Loose} {o : Option OliveBytes} (h : Inv loose σ) (hparts : loose'.parts = loose.parts)
    (hown : ∀ w, o.bind OliveBytes.own = some w →
      (w.cap = 0 ∧ w.len = 0) ∨ (σ.slots buf).bind OliveBytes.own = some w)
    (hcount : ∀ py, py ≠ 0 → held o py + loose'.count py = held (σ.slots buf) py + loose.count py)
    (hnew : ∀ b, o = some b → buf ≠ 0 ∧ (b.py ≠ 0 → ∃ o, Backed σ b o)) : Inv loose' (σ.put buf o) := by
  refine h.put id Function.injective_id ?_ hcount hnew
  intro owner w hw
  cases owner with
  | loose =>
    right
    have hw' : loose'.parts = some w := hw
    rw [hparts] at hw'
    exact hw'
  | object py => exact .inr hw
  | buffer y =>
    have hw' : ((σ.put buf o).slots y).bind OliveBytes.own = some w := hw
    by_cases hy : y = buf
    · rw [hy, slots_put] at hw'
      rw [hy]
      exact hown w hw'
    · rw [show (σ.put buf o).slots y = σ.slots y from Function.update_of_ne hy _ _] at hw'
      exact .inr hw'

end Headers

section Operations

variable {σ₀ σ : Heap} {buf : Word} {b : OliveBytes} {bytes data : List UInt8} {v : Parts} {off : Nat}

theorem own_of (hb : σ.slots buf = some b) (hpy : b.py = 0) :
    region .nothing σ (.buffer buf) = some b.toParts := by
  show (σ.slots buf).bind OliveBytes.own = _
  rw [hb]
  exact if_pos hpy

/-- A buffer can be read. -/
theorem readable (h : Inv .nothing σ) (hb : σ.slots buf = some b) : ∃ bytes, contents σ buf = some bytes ∧
    b.len = bytes.length ∧ b.asSlice σ = .ok bytes := by
  have hread : ∃ bytes, slice σ b.ptr b.len = some bytes ∧ bytes.length = b.len ∧ (b.ptr = 0 → b.len = 0) := by
    by_cases hpy : b.py = 0
    · have hholds := h.holds _ _ (own_of hb hpy)
      obtain ⟨bytes, hslice, hlen⟩ := hholds.slice
      have hroom : b.len ≤ b.cap := hholds.room
      refine ⟨bytes, hslice, hlen, fun hnull => ?_⟩
      have hcap : b.cap = 0 := hholds.null hnull
      omega
    · obtain ⟨o, hobject, hptr, hlen⟩ := (h.slots buf b hb).2 hpy
      have hown : region .nothing σ (.object b.py) = some o.parts := by
        show (σ.objects b.py).map PyBytes.parts = _
        rw [hobject]
        rfl
      have hholds := h.holds _ _ hown
      obtain ⟨bytes, hslice, hlength⟩ := hholds.slice
      rw [hptr, hlen]
      refine ⟨bytes, hslice, hlength, fun hnull => ?_⟩
      have hcap := hholds.null hnull
      have hroom := (h.counted b.py o hobject).room
      omega
  obtain ⟨bytes, hslice, hlen, hnull⟩ := hread
  refine ⟨bytes, (contents_of hb).trans hslice, hlen.symm, ?_⟩
  unfold OliveBytes.asSlice
  split_ifs with hptr
  · rw [List.eq_nil_of_length_eq_zero (hlen.trans (hnull hptr))]
  · rw [hslice]
    rfl

theorem read_of (h : Inv .nothing σ) (hb : σ.slots buf = some b) (hbytes : contents σ buf = some bytes) :
    b.len = bytes.length ∧ b.asSlice σ = .ok bytes := by
  obtain ⟨bytes', hbytes', hlen, hread⟩ := readable h hb
  rw [hbytes] at hbytes'
  cases hbytes'
  exact ⟨hlen, hread⟩

theorem setVec_eq (hb : σ.slots buf = some b) (hpy : b.py = 0) :
    setVec σ buf v = .ok (σ.put buf (some { toParts := v, py := 0 })) := by
  unfold setVec
  rw [header_of hb]
  show ((olivePyBackingRelease (σ.put buf (some { b with py := 0 })) b.py).map _ : Outcome Heap) = _
  rw [hpy]
  unfold olivePyBackingRelease
  rw [if_pos rfl]
  exact congrArg _ (put_put _ _)

/-- A loose vector becomes the bytes of a buffer. -/
theorem Loosened.done (hm : Loosened σ₀ bytes σ v) (hb : σ₀.slots buf = some b) (hpy : b.py = 0) :
    setVec σ buf v = .ok (σ.put buf (some { toParts := v, py := 0 })) ∧
      Done σ₀ buf (some bytes) (σ.put buf (some { toParts := v, py := 0 })) := by
  have hb' : σ.slots buf = some b := by
    rw [hm.slots]
    exact hb
  refine ⟨setVec_eq hb' hpy, ?_, ?_, hm.shared.trans shared_put⟩
  · refine hm.inv.give .nothing (hm.inv.slots buf b hb').1 rfl ?_
    intro py hne
    rw [hb']
    show 0 = if decide (b.py = py) = true then 1 else 0
    rw [if_neg]
    rw [decide_eq_true_iff, hpy]
    exact Ne.symm hne
  · rw [contents_put, hm.contents]
    exact congrArg _ hm.bytes

theorem realize_done (rt : Runtime) (h : Inv .nothing σ) (hb : σ.slots buf = some b)
    (hbytes : contents σ buf = some bytes) : realize rt σ buf = .error .outOfMemory ∨
      ∃ σ' b', realize rt σ buf = .ok σ' ∧ Done σ buf (some bytes) σ' ∧ σ'.slots buf = some b' ∧
        b'.py = 0 := by
  unfold realize
  rw [header_of hb]
  show ((if b.py = 0 then .ok σ else _ : Outcome Heap) = _) ∨
    ∃ σ' b', ((if b.py = 0 then .ok σ else _ : Outcome Heap) = .ok σ') ∧ _
  split_ifs with hpy
  · refine .inr ⟨σ, b, rfl, ?_, hb, hpy⟩
    rw [← hbytes]
    exact Done.self h
  · obtain ⟨-, hread⟩ := read_of h hb hbytes
    obtain ⟨hbuf, hbacked⟩ := h.slots buf b hb
    obtain ⟨o, hobject, -, -⟩ := hbacked hpy
    rw [hread]
    show (((toVec rt σ bytes).bind _ : Outcome Heap) = _) ∨
      ∃ σ' b', ((toVec rt σ bytes).bind _ : Outcome Heap) = .ok σ' ∧ _
    rcases allocate_done rt h bytes bytes.length (Nat.le_refl _) with hfull | ⟨σ₁, v, halloc, hm, -⟩
    · left
      unfold toVec
      rw [hfull]
      rfl
    · right
      have hb₁ : σ₁.slots buf = some b := by
        rw [hm.slots]
        exact hb
      have hset : setVec (σ₁.put buf (some { b with py := 0 })) buf v =
          .ok (σ₁.put buf (some { toParts := v, py := 0 })) := by
        rw [setVec_eq (slots_put _) rfl, put_put]
      have hinv : Inv (.ref b.py) (σ₁.put buf (some { toParts := v, py := 0 })) := by
        refine hm.inv.give (.ref b.py) hbuf rfl ?_
        intro py _
        rw [hb₁]
        show (if b.py = py then 1 else 0) = if decide (b.py = py) = true then 1 else 0
        simp only [decide_eq_true_iff]
      have hobject₁ : (σ₁.put buf (some { toParts := v, py := 0 })).objects b.py = some o := by
        show σ₁.objects b.py = some o
        rw [hm.objects]
        exact hobject
      obtain ⟨σ', hrelease, hinv', hcontents, hshared, hslots⟩ := release_done hinv hobject₁ hpy
      refine ⟨σ', _, ?_, ⟨hinv', ?_, ?_⟩, (congrFun hslots buf).trans (slots_put _), rfl⟩
      · unfold toVec
        rw [halloc]
        show (setVec (σ₁.put buf (some { b with py := 0 })) buf v).bind _ = _
        rw [hset]
        exact hrelease
      · rw [hcontents, contents_put, hm.contents]
        exact congrArg _ hm.bytes
      · exact hm.shared.trans (shared_put.trans hshared)

/-- What `take_vec` leaves: the header is empty, and the vector has the bytes. -/
theorem takeVec_done (rt : Runtime) (h : Inv .nothing σ) (hb : σ.slots buf = some b)
    (hbytes : contents σ buf = some bytes) : takeVec rt σ buf = .error .outOfMemory ∨
      ∃ σ' b' v, takeVec rt σ buf = .ok (σ', v) ∧ Loosened σ' bytes σ' v ∧ σ'.slots buf = some b' ∧
        b'.py = 0 ∧ contents σ' = Function.update (contents σ) buf (some []) ∧ Shared σ σ' := by
  unfold takeVec
  rcases realize_done rt h hb hbytes with hfull | ⟨σ₁, b₁, hrealize, hdone, hb₁, hpy⟩
  · left
    rw [hfull]
    rfl
  · right
    obtain ⟨hlen, -⟩ := read_of hdone.inv hb₁ hdone.at
    refine ⟨σ₁.put buf (some { ptr := 0, len := 0, cap := 0, py := b₁.py }), _, b₁.toParts, ?_, ?_,
      slots_put _, hpy, ?_, hdone.shared.trans shared_put⟩
    · rw [hrealize]
      show (σ₁.header buf).map _ = _
      rw [header_of hb₁]
      rfl
    · refine ⟨hdone.inv.take hb₁ hpy, rfl, Shared.refl _, rfl, rfl, hlen, ?_⟩
      show slice σ₁ b₁.ptr b₁.len = _
      rw [← contents_of hb₁]
      exact hdone.at
    · rw [contents_put, hdone.contents, Function.update_idem]
      rfl

theorem withVec_done (rt : Runtime) (h : Inv .nothing σ) (hb : σ.slots buf = some b)
    (hbytes : contents σ buf = some bytes) (f : Heap → Parts → Outcome (Heap × Parts)) (out : List UInt8)
    (hf : ∀ σ₀ σ₁ v, Loosened σ₀ bytes σ₁ v → f σ₁ v = .error .outOfMemory ∨
      ∃ σ' v', f σ₁ v = .ok (σ', v') ∧ Loosened σ₀ out σ' v') :
    withVec rt σ buf f = .error .outOfMemory ∨
      ∃ σ', withVec rt σ buf f = .ok σ' ∧ Done σ buf (some out) σ' := by
  unfold withVec
  rcases takeVec_done rt h hb hbytes with hfull | ⟨σ₁, b₁, v, htake, hm, hb₁, hpy, hcontents, hshared⟩
  · left
    rw [hfull]
    rfl
  · rw [htake]
    show ((f σ₁ v).bind _ : Outcome Heap) = _ ∨ ∃ σ', ((f σ₁ v).bind _ : Outcome Heap) = .ok σ' ∧ _
    rcases hf σ₁ σ₁ v hm with hfull | ⟨σ₂, v', hok, hm'⟩
    · left
      rw [hfull]
      rfl
    · right
      obtain ⟨hset, hdone⟩ := hm'.done hb₁ hpy
      refine ⟨_, ?_, hdone.inv, ?_, hshared.trans hdone.shared⟩
      · rw [hok]
        exact hset
      · rw [hdone.contents, hcontents, Function.update_idem]

/-- A write among the bytes of a buffer. -/
theorem copyFromSlice_done (rt : Runtime) (h : Inv .nothing σ) (hb : σ.slots buf = some b)
    (hbytes : contents σ buf = some bytes) (hdata : data ≠ []) (hin : off + data.length ≤ bytes.length) :
    copyFromSlice rt σ buf off data = .error .outOfMemory ∨
      ∃ σ', copyFromSlice rt σ buf off data = .ok σ' ∧ Done σ buf (some (overwrite bytes off data)) σ' := by
  unfold copyFromSlice
  rcases realize_done rt h hb hbytes with hfull | ⟨σ₁, b₁, hrealize, hdone, hb₁, hpy⟩
  · left
    rw [hfull]
    rfl
  · right
    have hpos : 0 < data.length := List.length_pos_iff.mpr hdata
    obtain ⟨hlen, -⟩ := read_of hdone.inv hb₁ hdone.at
    have hown := own_of hb₁ hpy
    obtain ⟨hroom, hnull, -, -⟩ := hdone.inv.holds _ _ hown
    have hptr : b₁.ptr ≠ 0 := by
      intro hzero
      have := hnull hzero
      omega
    obtain ⟨σ', hpoke, hinv, hshared, hslots, -, hcontents, -, hbytes'⟩ :=
      poke_done hdone.inv hown (fun py he => nomatch he) off data (by omega)
    have hb' : σ'.slots buf = some b₁ := (congrFun hslots buf).trans hb₁
    refine ⟨σ', ?_, hinv, ?_, hdone.shared.trans hshared⟩
    · rw [hrealize]
      show (σ₁.header buf).bind _ = _
      rw [header_of hb₁]
      show (if b₁.ptr = 0 ∨ b₁.len < off + data.length then .error .panic else poke σ₁ b₁.ptr off data) = _
      rw [if_neg (not_or.mpr ⟨hptr, by omega⟩)]
      exact hpoke
    · funext x
      by_cases hx : x = buf
      · rw [hx, Function.update_self, contents_of hb']
        refine hbytes' bytes ?_ (by omega)
        show slice σ₁ b₁.ptr b₁.len = _
        rw [← contents_of hb₁]
        exact hdone.at
      · rw [Function.update_of_ne hx, hcontents x fun he => hx (Owner.buffer.inj he).symm, hdone.contents,
          Function.update_of_ne hx]

theorem append_done (rt : Runtime) (h : Inv .nothing σ) (hb : σ.slots buf = some b)
    (hbytes : contents σ buf = some bytes) (data : List UInt8) :
    append rt σ buf data = .error .outOfMemory ∨
      ∃ σ', append rt σ buf data = .ok σ' ∧ Done σ buf (some (bytes ++ data)) σ' := by
  unfold append
  rcases realize_done rt h hb hbytes with hfull | ⟨σ₁, b₁, hrealize, hdone, hb₁, hpy⟩
  · left
    rw [hfull]
    rfl
  · obtain ⟨hlen, -⟩ := read_of hdone.inv hb₁ hdone.at
    rw [hrealize]
    show ((σ₁.header buf).bind _ : Outcome Heap) = _ ∨
      ∃ σ', ((σ₁.header buf).bind _ : Outcome Heap) = .ok σ' ∧ _
    rw [header_of hb₁]
    show ((if b₁.len + data.length ≤ b₁.cap then _ else _ : Outcome Heap) = _) ∨
      ∃ σ', ((if b₁.len + data.length ≤ b₁.cap then _ else _ : Outcome Heap) = .ok σ') ∧ _
    split_ifs with hroom
    · right
      have hown := own_of hb₁ hpy
      obtain ⟨σ₂, hpoke, hinv, hshared, hslots, -, hcontents, hend, -⟩ :=
        poke_done hdone.inv hown (fun py he => nomatch he) b₁.len data hroom
      have hb₂ : σ₂.slots buf = some b₁ := (congrFun hslots buf).trans hb₁
      have hsame : some ({ b₁ with len := b₁.len + data.length } : OliveBytes) =
          some { toParts := { b₁.toParts with len := b₁.len + data.length }, py := 0 } := by
        rw [← hpy]
      refine ⟨σ₂.put buf (some { b₁ with len := b₁.len + data.length }), ?_, ?_, ?_,
        hdone.shared.trans (hshared.trans shared_put)⟩
      · show (poke σ₁ b₁.ptr b₁.len data).map _ = _
        rw [show poke σ₁ b₁.ptr b₁.len data = .ok σ₂ from hpoke]
        rfl
      · -- the vector is taken out, grows by the bytes that were written, and is put back
        have htaken := ((hinv.take hb₂ hpy).relen hroom).give .nothing
          (hinv.slots buf b₁ hb₂).1 rfl ?_
        · rw [put_put] at htaken
          rw [hsame]
          exact htaken
        · intro py hne
          rw [slots_put]
          show 0 = if decide (b₁.py = py) = true then 1 else 0
          rw [if_neg]
          rw [decide_eq_true_iff, hpy]
          exact Ne.symm hne
      · have hslice : slice σ₂ b₁.ptr (b₁.len + data.length) = some (bytes ++ data) := by
          apply hend bytes
          show slice σ₁ b₁.ptr b₁.len = _
          rw [← contents_of hb₁]
          exact hdone.at
        rw [contents_put]
        funext x
        by_cases hx : x = buf
        · rw [hx, Function.update_self, Function.update_self]
          exact hslice
        · rw [Function.update_of_ne hx, Function.update_of_ne hx,
            hcontents x fun he => hx (Owner.buffer.inj he).symm, hdone.contents, Function.update_of_ne hx]
    · rcases withVec_done rt hdone.inv hb₁ hdone.at (fun σ v => extendFromSlice rt σ data v)
        (bytes ++ data) (fun σ₀ σ₁ v hm => extendFromSlice_done hm data) with
        hfull | ⟨σ', hok, hdone'⟩
      · exact .inl hfull
      · exact .inr ⟨σ', hok, hdone.trans hdone'⟩

end Operations

end Buffers

end Olive
