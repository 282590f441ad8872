import Olive.BufferRuns
import Olive.BufferSteps

/-! Byte buffers refine lists of bytes, as long as no slice steps past the largest word. -/

namespace Olive

namespace Buffers

open ByteLists StrMethods

section Buffers

variable {rt : Runtime} {σ₀ σ : Heap} {buf py : Word} {b : OliveBytes} {o : PyBytes} {bytes data : List UInt8}
  {v : Parts}

/-- A loose vector gets a header. -/
theorem newVec_done (rt : Runtime) (hm : Loosened σ₀ bytes σ v) : newVec rt σ v = .error .outOfMemory ∨
    ∃ σ' a, newVec rt σ v = .ok (σ', a) ∧ Creates σ₀ bytes σ' (.word a) ∧ Inv .nothing σ' ∧
      Shared σ₀ σ' := by
  unfold newVec allocSlot
  cases hslot : rt.slot σ with
  | none => exact .inl rfl
  | some a =>
    right
    obtain ⟨hnone, hne⟩ := rt.slot_fresh σ a hslot
    refine ⟨_, a, rfl, ⟨a, rfl, ?_, ?_⟩, ?_, hm.shared.trans shared_put⟩
    · rw [← hm.slots]
      exact hnone
    · rw [contents_put, hm.contents]
      exact congrArg _ hm.bytes
    · refine hm.inv.give .nothing hne rfl ?_
      intro py _
      rw [hnone]
      rfl

theorem newBuf_done (rt : Runtime) (h : Inv .nothing σ) (data : List UInt8) :
    newBuf rt σ data = .error .outOfMemory ∨
      ∃ σ' a, newBuf rt σ data = .ok (σ', a) ∧ Creates σ data σ' (.word a) ∧ Inv .nothing σ' ∧
        Shared σ σ' := by
  unfold newBuf toVec
  rcases allocate_done rt h data data.length (Nat.le_refl _) with hfull | ⟨σ₁, v, halloc, hm, -⟩
  · left
    rw [hfull]
    rfl
  · rw [halloc]
    exact newVec_done rt hm

/-- A reference becomes a buffer that borrows. -/
theorem borrow_done (rt : Runtime) (h : Inv (.ref py) σ) (ho : σ.objects py = some o) (hpy : py ≠ 0)
    (hbytes : payload σ py = some bytes) {b : OliveBytes} (hb : b.py = py) (hptr : b.ptr = o.parts.ptr)
    (hlen : b.len = o.parts.len) : allocSlot rt σ b = .error .outOfMemory ∨
      ∃ σ' a, allocSlot rt σ b = .ok (σ', a) ∧ Creates σ bytes σ' (.word a) ∧ Inv .nothing σ' ∧
        Shared σ σ' := by
  unfold allocSlot
  cases hslot : rt.slot σ with
  | none => exact .inl rfl
  | some a =>
    right
    obtain ⟨hnone, hne⟩ := rt.slot_fresh σ a hslot
    have hslice : slice σ b.ptr b.len = some bytes := by
      rw [hptr, hlen, ← hbytes]
      unfold payload
      rw [ho]
      rfl
    refine ⟨_, a, rfl, ⟨a, rfl, hnone, ?_⟩, ?_, shared_put⟩
    · rw [contents_put]
      exact congrArg _ hslice
    · refine h.reput rfl ?_ ?_ ?_
      · intro w hw
        have hown : b.own = some w := hw
        unfold OliveBytes.own at hown
        rw [hb, if_neg hpy] at hown
        cases hown
      · intro q _
        rw [hnone]
        show (if decide (b.py = q) = true then 1 else 0) + 0 = 0 + if py = q then 1 else 0
        simp only [decide_eq_true_iff, hb]
        omega
      · intro c hc
        cases hc
        exact ⟨hne, fun _ => ⟨o, by rw [hb]; exact ho, hptr, hlen⟩⟩

theorem Creates.of_contents {σ₁ σ' : Heap} {answer : Answer} (h : Creates σ₁ bytes σ' answer)
    (hslots : σ₁.slots = σ.slots) (hcontents : contents σ₁ = contents σ) : Creates σ bytes σ' answer := by
  obtain ⟨a, rfl, hnone, hafter⟩ := h
  refine ⟨a, rfl, ?_, ?_⟩
  · rw [← hslots]
    exact hnone
  · rw [hafter, hcontents]

/-- An object that is referenced gets a buffer more. -/
theorem share_done (rt : Runtime) (h : Inv .nothing σ) (ho : σ.objects py = some o)
    (hbytes : payload σ py = some bytes) {b : OliveBytes} (hb : b.py = py) (hptr : b.ptr = o.parts.ptr)
    (hlen : b.len = o.parts.len) :
    ((olivePyBackingIncref σ py).bind fun σ => allocSlot rt σ b) = .error .outOfMemory ∨
      ∃ σ' a, ((olivePyBackingIncref σ py).bind fun σ => allocSlot rt σ b) = .ok (σ', a) ∧
        Creates σ bytes σ' (.word a) ∧ Inv .nothing σ' ∧ Shared σ σ' := by
  have hpy := (h.counted py o ho).notNull
  obtain ⟨σ₁, hincref, hinv, hcontents, hshared, hslots, hobject, hpayload⟩ := incref_done h ho hpy
  rw [hincref]
  show allocSlot rt σ₁ b = _ ∨ ∃ σ' a, allocSlot rt σ₁ b = .ok (σ', a) ∧ _
  rcases borrow_done rt hinv hobject hpy (hpayload.trans hbytes) hb hptr hlen with
    hfull | ⟨σ', a, halloc, hcreates, hinv', hshared'⟩
  · exact .inl hfull
  · exact .inr ⟨σ', a, halloc, hcreates.of_contents hslots hcontents, hinv', hshared.trans hshared'⟩

theorem cloneBuf_done (rt : Runtime) (h : Inv .nothing σ) (hb : σ.slots buf = some b)
    (hbytes : contents σ buf = some bytes) : cloneBuf rt σ buf = .error .outOfMemory ∨
      ∃ σ' a, cloneBuf rt σ buf = .ok (σ', a) ∧ Creates σ bytes σ' (.word a) ∧ Inv .nothing σ' ∧
        Shared σ σ' := by
  obtain ⟨-, hread⟩ := read_of h hb hbytes
  unfold cloneBuf
  rw [header_of hb]
  show (if b.py = 0 then (b.asSlice σ).bind (newBuf rt σ) else _ : Outcome (Heap × Word)) = _ ∨
    ∃ σ' a, (if b.py = 0 then (b.asSlice σ).bind (newBuf rt σ) else _ : Outcome (Heap × Word)) =
      .ok (σ', a) ∧ _
  split_ifs with hpy
  · rw [hread]
    exact newBuf_done rt h bytes
  · obtain ⟨o, hobject, hptr, hlen⟩ := (h.slots buf b hb).2 hpy
    have hpayload : payload σ b.py = some bytes := by
      unfold payload
      rw [hobject, ← hbytes, contents_of hb, hptr, hlen]
      rfl
    exact share_done rt h hobject hpayload rfl hptr hlen

theorem wrap_done (rt : Runtime) (h : Inv .nothing σ) (ho : σ.objects py = some o)
    (hbytes : payload σ py = some bytes) : olivePyBytesWrapExact rt σ py = .error .outOfMemory ∨
      ∃ σ' a, olivePyBytesWrapExact rt σ py = .ok (σ', a) ∧ Creates σ bytes σ' (.word a) ∧
        Inv .nothing σ' ∧ Shared σ σ' := by
  unfold olivePyBytesWrapExact
  rw [ho]
  exact share_done rt h ho hbytes rfl rfl rfl

/-- A slot goes that has neither a block nor a reference. -/
theorem drop_slot (h : Inv .nothing σ) (hb : σ.slots buf = some b) (hpy : b.py = 0) :
    Inv .nothing (σ.put buf none) := by
  refine h.reput rfl (fun w hw => nomatch hw) ?_ fun c hc => nomatch hc
  intro q hq
  rw [hb]
  show 0 + 0 = (if decide (b.py = q) = true then 1 else 0) + 0
  rw [if_neg]
  rw [decide_eq_true_iff, hpy]
  exact Ne.symm hq

theorem free_done (rt : Runtime) (h : Inv .nothing σ) (hb : σ.slots buf = some b) : ∃ σ',
    oliveBufFree rt σ buf = .ok σ' ∧ Done σ buf none σ' := by
  obtain ⟨hbuf, hbacked⟩ := h.slots buf b hb
  have hempty : contents (σ.put buf (some { ptr := 0, len := 0, cap := 0, py := 0 })) =
      Function.update (contents σ) buf (some []) := contents_put
  unfold oliveBufFree
  rw [if_neg hbuf, hb]
  show ∃ σ', ((if b.py = 0 then (takeVec rt σ buf).bind fun r => dealloc r.1 r.2
    else olivePyBackingRelease (σ.put buf (some { ptr := 0, len := 0, cap := 0, py := 0 })) b.py).map
      fun σ => σ.put buf none : Outcome Heap) = .ok σ' ∧ _
  split_ifs with hpy
  · have htake : takeVec rt σ buf =
        .ok (σ.put buf (some { ptr := 0, len := 0, cap := 0, py := b.py }), b.toParts) := by
      have hrealize : realize rt σ buf = .ok σ := by
        unfold realize
        rw [header_of hb]
        exact if_pos hpy
      unfold takeVec
      rw [hrealize]
      show (σ.header buf).map _ = _
      rw [header_of hb]
      rfl
    obtain ⟨σ', hdealloc, hinv, hcontents, hshared, hslots, -⟩ := dealloc_done (h.take hb hpy)
    have hb' : σ'.slots buf = some { ptr := 0, len := 0, cap := 0, py := b.py } :=
      (congrFun hslots buf).trans (slots_put _)
    refine ⟨σ'.put buf none, ?_, drop_slot hinv hb' hpy, ?_, shared_put.trans (hshared.trans shared_put)⟩
    · rw [htake]
      show (dealloc _ b.toParts).map _ = _
      rw [hdealloc]
      rfl
    · rw [contents_put, hcontents, contents_put, Function.update_idem]
      rfl
  · obtain ⟨o, hobject, -, -⟩ := hbacked hpy
    have hinv : Inv (.ref b.py) (σ.put buf (some { ptr := 0, len := 0, cap := 0, py := 0 })) := by
      refine h.reput rfl ?_ ?_ ?_
      · intro w hw
        cases hw
        exact .inl ⟨rfl, rfl⟩
      · intro q hq
        rw [hb]
        show (if decide (0 = q) = true then 1 else 0) + (if b.py = q then 1 else 0) =
          (if decide (b.py = q) = true then 1 else 0) + 0
        rw [if_neg (by rw [decide_eq_true_iff]; exact Ne.symm hq)]
        simp only [decide_eq_true_iff]
        omega
      · intro c hc
        cases hc
        exact ⟨hbuf, fun hne => absurd rfl hne⟩
    obtain ⟨σ', hrelease, hinv', hcontents, hshared, hslots⟩ := release_done hinv hobject hpy
    have hb' : σ'.slots buf = some { ptr := 0, len := 0, cap := 0, py := 0 } :=
      (congrFun hslots buf).trans (slots_put _)
    refine ⟨σ'.put buf none, ?_, drop_slot hinv' hb' rfl, ?_, shared_put.trans (hshared.trans shared_put)⟩
    · rw [hrelease]
      rfl
    · rw [contents_put, hcontents, hempty, Function.update_idem]
      rfl

end Buffers

section Objects

variable {rt : Runtime} {σ : Heap} {py : Word} {o : PyBytes} {bytes : List UInt8} {v : Parts}

/-- A loose vector becomes the bytes of a new object, with one reference. -/
theorem Inv.adopt (h : Inv (.vec v) σ) (hnone : σ.objects py = none) (hpy : py ≠ 0) (hcap : 0 < v.cap) :
    Inv .nothing (σ.keep py (some ⟨v, 1, 1⟩)) := by
  have hself : (σ.keep py (some ⟨v, 1, 1⟩)).objects py = some ⟨v, 1, 1⟩ := Function.update_self ..
  have hne {q : Word} (hq : q ≠ py) : (σ.keep py (some ⟨v, 1, 1⟩)).objects q = σ.objects q :=
    Function.update_of_ne hq _ _
  have hnobody : ∀ buf b, σ.slots buf = some b → b.py ≠ py := by
    rintro buf b hb rfl
    obtain ⟨o, hobject, -, -⟩ := (h.slots buf b hb).2 hpy
    rw [hnone] at hobject
    cases hobject
  have hregion : ∀ owner w, region .nothing (σ.keep py (some ⟨v, 1, 1⟩)) owner = some w →
      region (.vec v) σ (Equiv.swap (.object py) .loose owner) = some w := by
    intro owner w hw
    by_cases hobject : owner = .object py
    · rw [hobject, Equiv.swap_apply_left]
      rw [hobject] at hw
      have hw' : ((σ.keep py (some ⟨v, 1, 1⟩)).objects py).map PyBytes.parts = some w := hw
      rw [hself] at hw'
      exact hw'
    · obtain ⟨hloose, -⟩ := region_nothing .nothing hw
      rw [Equiv.swap_apply_of_ne_of_ne hobject hloose]
      cases owner with
      | loose => exact absurd rfl hloose
      | buffer buf => exact hw
      | object q =>
        have hq : q ≠ py := fun he => hobject (congrArg Owner.object he)
        have hw' : ((σ.keep py (some ⟨v, 1, 1⟩)).objects q).map PyBytes.parts = some w := hw
        rw [hne hq] at hw'
        exact hw'
  constructor
  · intro owner w hw
    obtain ⟨hroom, hnull, hsmall, hblock⟩ := h.holds _ w (hregion owner w hw)
    exact ⟨hroom, hnull, hsmall, hblock⟩
  · intro owner owner' w w' hw hw' hc hc' hptr
    exact (Equiv.injective _) (h.apart _ _ w w' (hregion owner w hw) (hregion owner' w' hw') hc hc' hptr)
  · intro buf b hb
    obtain ⟨hbuf, hback⟩ := h.slots buf b hb
    refine ⟨hbuf, fun hb' => ?_⟩
    obtain ⟨obj, hobject, hptr, hlen⟩ := hback hb'
    exact ⟨obj, (hne (hnobody buf b hb)).trans hobject, hptr, hlen⟩
  · intro q obj hobj
    by_cases hq : q = py
    · rw [hq, hself] at hobj
      cases hobj
      rw [hq]
      refine ⟨hpy, hcap, Nat.one_pos, ∅, ?_, rfl⟩
      intro buf
      constructor
      · intro hmem
        exact absurd hmem (Finset.notMem_empty _)
      · rintro ⟨b, hb, hbpy⟩
        exact absurd hbpy (hnobody buf b hb)
    · rw [hne hq] at hobj
      obtain ⟨hnull, hroom, hlive, hrefs⟩ := h.counted q obj hobj
      exact ⟨hnull, hroom, hlive, hrefs⟩

theorem Shared.quiet {σ' : Heap} (h : Shared σ σ') (hcontents : contents σ' = contents σ) : Quiet σ σ' := by
  refine ⟨hcontents, ?_⟩
  intro q _ hq
  obtain ⟨o', ho'⟩ := Option.isSome_iff_exists.mp hq
  obtain ⟨-, -, -, hbytes⟩ := h.kept q o' ho'
  exact hbytes

theorem newPyBytes_done (rt : Runtime) (h : Inv .nothing σ) (bytes : List UInt8) :
    newPyBytes rt σ bytes = .error .outOfMemory ∨
      ∃ σ' py, newPyBytes rt σ bytes = .ok (σ', py) ∧ Inv .nothing σ' ∧ σ.objects py = none ∧
        payload σ' py = some bytes ∧ Quiet σ σ' := by
  unfold newPyBytes
  cases hmalloc : rt.malloc σ (bytes.length + 1) with
  | none => exact .inl rfl
  | some a =>
    cases hobject : rt.object (σ.store a (some (bytes ++ [0]))) with
    | none =>
      left
      simp only [hobject]
    | some py =>
      right
      simp only [hobject]
      obtain ⟨hfresh, hne, hsmall⟩ := rt.malloc_fresh σ _ a hmalloc
      obtain ⟨hnone, hpy⟩ := rt.object_fresh _ py hobject
      obtain ⟨hcontents, hshared⟩ := h.untouched .loose (some (bytes ++ [0])) (h.clear_fresh hfresh)
        fun q he => nomatch he
      have hclear : ∀ owner v, region .nothing σ owner = some v → 0 < v.cap → v.ptr ≠ a :=
        fun owner v hv hpos => h.clear_fresh hfresh owner v hv hpos (region_nothing .nothing hv).1
      have hself : (σ.store a (some (bytes ++ [0]))).memory a = some (bytes ++ [0]) :=
        Function.update_self ..
      have hlen : (bytes ++ [0]).length = bytes.length + 1 := List.length_append
      have hvec : Inv (.vec ⟨a, bytes.length, bytes.length + 1⟩) (σ.store a (some (bytes ++ [0]))) :=
        (h.store_clear _ hclear).gain
          ⟨Nat.le_succ _, fun he => absurd he hne, hsmall, fun _ => ⟨_, hself, hlen⟩⟩ fun _ => hclear
      have hkept : ((σ.store a (some (bytes ++ [0]))).keep py
          (some ⟨⟨a, bytes.length, bytes.length + 1⟩, 1, 1⟩)).objects py =
          some ⟨⟨a, bytes.length, bytes.length + 1⟩, 1, 1⟩ := Function.update_self ..
      refine ⟨_, py, rfl, hvec.adopt hnone hpy (Nat.succ_pos _), hnone, ?_, ?_, ?_⟩
      · unfold payload
        rw [hkept]
        show slice (σ.store a (some (bytes ++ [0]))) a bytes.length = _
        rw [slice_block hself (by omega), List.take_left]
      · funext buf
        exact hcontents buf fun he => nomatch he
      · intro q hq _
        have hqpy : q ≠ py := by
          rintro rfl
          have hnone' : σ.objects q = none := hnone
          rw [hnone'] at hq
          cases hq
        obtain ⟨obj, hobj⟩ := Option.isSome_iff_exists.mp hq
        obtain ⟨-, -, -, hbytes⟩ := hshared.kept q obj hobj
        rw [← hbytes]
        exact payload_keep hqpy

theorem pyIncref_done (h : Inv .nothing σ) (ho : σ.objects py = some o) :
    ∃ σ', pyIncref σ py = .ok σ' ∧ Inv .nothing σ' ∧ Quiet σ σ' := by
  refine ⟨σ.keep py (some { o with refs := o.refs + 1, foreign := o.foreign + 1 }), ?_, ?_, rfl,
    fun q _ _ => payload_keep_parts ho { o with refs := o.refs + 1, foreign := o.foreign + 1 } rfl q⟩
  · unfold pyIncref
    rw [ho]
    rfl
  · refine h.keep ho { o with refs := o.refs + 1, foreign := o.foreign + 1 } rfl (Nat.succ_pos _) ?_
      (fun _ _ => rfl) rfl
    show o.refs + 1 + o.foreign + 0 = o.refs + (o.foreign + 1) + 0
    omega

/-- A foreign reference is given back: first it is nobody's, then it goes. -/
theorem pyDecref_done (h : Inv .nothing σ) (ho : σ.objects py = some o) (hpos : 0 < o.foreign) :
    ∃ σ', pyDecref σ py = .ok σ' ∧ Inv .nothing σ' ∧ Quiet σ σ' := by
  have hcounted := h.counted py o ho
  have hinv : Inv (.ref py) (σ.keep py (some { o with foreign := o.foreign - 1 })) := by
    refine h.keep ho { o with foreign := o.foreign - 1 } rfl hcounted.live ?_ ?_ rfl
    · show o.refs + o.foreign + 0 = o.refs + (o.foreign - 1) + if py = py then 1 else 0
      rw [if_pos rfl]
      omega
    · intro q hq
      exact if_neg (Ne.symm hq)
  have hself : (σ.keep py (some { o with foreign := o.foreign - 1 })).objects py =
      some { o with foreign := o.foreign - 1 } := Function.update_self ..
  obtain ⟨σ', hrelease, hinv', hcontents, hshared, -⟩ := release_done hinv hself hcounted.notNull
  refine ⟨σ', ?_, hinv', hcontents, ?_⟩
  · unfold pyDecref
    rw [ho]
    exact hrelease
  · intro q _ hq
    rw [(hshared.quiet hcontents).2 q _ hq]
    · exact payload_keep_parts ho { o with foreign := o.foreign - 1 } rfl q
    · obtain ⟨o', ho'⟩ := Option.isSome_iff_exists.mp hq
      obtain ⟨o₁, ho₁, -, -⟩ := hshared.kept q o' ho'
      exact Option.isSome_iff_exists.mpr ⟨o₁, ho₁⟩

end Objects

section Bytes

variable {bytes data : List UInt8} {off : Nat}

theorem ofNat_low (w : Word) : UInt8.ofNat (w &&& 0xff).toNat = UInt8.ofNat w.toNat := by
  apply UInt8.toNat_inj.mp
  have hlow : w.toNat &&& (255 : Word).toNat = w.toNat % 2 ^ 8 := Nat.and_two_pow_sub_one_eq_mod w.toNat 8
  rw [UInt8.toNat_ofNat', UInt8.toNat_ofNat', BitVec.toNat_and, hlow, Nat.mod_mod]

theorem overwrite_single {x : UInt8} (h : off < bytes.length) : overwrite bytes off [x] = bytes.set off x := by
  rw [List.set_eq_take_append_cons_drop, if_pos h]
  unfold overwrite
  rw [List.append_assoc]
  rfl

/-- The bounds of a slice may be farther out than the bytes. -/
theorem slice_clip (start stop : Nat) :
    (if min stop bytes.length < min start bytes.length then []
      else (bytes.take (min stop bytes.length)).drop (min start bytes.length)) =
      (bytes.take stop).drop start := by
  have htake : bytes.take (min stop bytes.length) = bytes.take stop := by
    rcases Nat.le_total stop bytes.length with hle | hle
    · rw [Nat.min_eq_left hle]
    · rw [Nat.min_eq_right hle, List.take_of_length_le hle, List.take_length]
  have hlen : (bytes.take stop).length = min stop bytes.length := List.length_take
  rw [htake]
  split_ifs with hlt
  · exact (List.drop_eq_nil_of_le (by omega)).symm
  · rcases Nat.le_total start bytes.length with hle | hle
    · rw [Nat.min_eq_left hle]
    · rw [List.drop_eq_nil_of_le (by omega), List.drop_eq_nil_of_le (by omega)]

end Bytes

section Steps

variable {rt : Runtime} {σ : Heap} {buf : Word} {b : OliveBytes} {bytes data : List UInt8} {op : Op}

/-- An operation goes through unless the memory is full, with the right effect, and keeps the invariant. -/
def Good (rt : Runtime) (σ : Heap) (op : Op) : Prop :=
  step rt σ op = .error .outOfMemory ∨
    ∃ σ' answer, step rt σ op = .ok (σ', answer) ∧ Inv .nothing σ' ∧ Right σ op σ' answer

theorem good_creates {r : Outcome (Heap × Word)} (hstep : step rt σ op = answered .word r)
    (hr : r = .error .outOfMemory ∨ ∃ σ' a, r = .ok (σ', a) ∧ Creates σ bytes σ' (.word a) ∧
      Inv .nothing σ' ∧ Shared σ σ')
    (hright : ∀ σ' answer, Creates σ bytes σ' answer → Shared σ σ' → Right σ op σ' answer) :
    Good rt σ op := by
  rcases hr with hfull | ⟨σ', a, hok, hcreates, hinv, hshared⟩
  · left
    rw [hstep, hfull]
    rfl
  · refine .inr ⟨σ', .word a, ?_, hinv, hright σ' _ hcreates hshared⟩
    rw [hstep, hok]
    rfl

theorem good_edits {r : Outcome Heap} {x : Option (List UInt8)} (hstep : step rt σ op = done r)
    (hr : r = .error .outOfMemory ∨ ∃ σ', r = .ok σ' ∧ Done σ buf x σ')
    (hright : ∀ σ', Done σ buf x σ' → Right σ op σ' .done) : Good rt σ op := by
  rcases hr with hfull | ⟨σ', hok, hdone⟩
  · left
    rw [hstep, hfull]
    rfl
  · refine .inr ⟨σ', .done, ?_, hdone.inv, hright σ' hdone⟩
    rw [hstep, hok]
    rfl

theorem good_tells {α : Type} {answer : α → Answer} {r : Outcome α} {x : α} (h : Inv .nothing σ)
    (hstep : step rt σ op = read σ answer r) (hr : r = .ok x) (hright : Right σ op σ (answer x)) :
    Good rt σ op := by
  refine .inr ⟨σ, answer x, ?_, h, hright⟩
  rw [hstep, hr]
  rfl

theorem pushLe_done (rt : Runtime) (h : Inv .nothing σ) (hb : σ.slots buf = some b)
    (hbytes : contents σ buf = some bytes) (w : Nat) (val : Word) :
    pushLe rt σ w buf val = .error .outOfMemory ∨ ∃ σ', pushLe rt σ w buf val = .ok σ' ∧
      Done σ buf (some (bytes ++ toBytes .little w val.toNat)) σ' := by
  unfold pushLe
  rw [if_neg (h.slots buf b hb).1]
  exact append_done rt h hb hbytes _

theorem oliveBufSet_done (rt : Runtime) (h : Inv .nothing σ) (hb : σ.slots buf = some b)
    (hbytes : contents σ buf = some bytes) (idx val : Word) :
    oliveBufSet rt σ buf idx val = .error .outOfMemory ∨ ∃ σ', oliveBufSet rt σ buf idx val = .ok σ' ∧
      Done σ buf (some (edited bytes (.set buf idx val))) σ' := by
  obtain ⟨hlen, -⟩ := read_of h hb hbytes
  have hbuf := (h.slots buf b hb).1
  by_cases hin : 0 ≤ idx.toInt ∧ idx.toInt < bytes.length
  · have hpath : oliveBufSet rt σ buf idx val =
        copyFromSlice rt σ buf idx.toInt.toNat [UInt8.ofNat (val &&& 0xff).toNat] := by
      unfold oliveBufSet
      rw [if_neg (not_or.mpr ⟨hbuf, by omega⟩), header_of hb]
      exact if_pos (by omega)
    have hedit : edited bytes (.set buf idx val) =
        overwrite bytes idx.toInt.toNat [UInt8.ofNat (val &&& 0xff).toNat] := by
      rw [overwrite_single (by omega), ofNat_low]
      exact if_pos hin
    rw [hpath, hedit]
    exact copyFromSlice_done rt h hb hbytes (List.cons_ne_nil _ _) (by simp only [List.length_singleton]; omega)
  · have hpath : oliveBufSet rt σ buf idx val = .ok σ := by
      unfold oliveBufSet
      split_ifs with hguard
      · rfl
      · rw [header_of hb]
        exact if_neg (by omega)
    have hedit : edited bytes (.set buf idx val) = bytes := if_neg hin
    rw [hpath, hedit, ← hbytes]
    exact .inr ⟨σ, rfl, Done.self h⟩

/-- The write past the end: the vector grows with zeros first. -/
theorem writePast_done {off : Nat} (hlen : bytes.length ≤ off + data.length) {σ₀ σ₁ : Heap} {v : Parts}
    (hm : Loosened σ₀ bytes σ₁ v) :
    ((resize rt σ₁ (off + data.length) v).bind fun (σ, v) => (poke σ v.ptr off data).map fun σ => (σ, v)) =
        .error .outOfMemory ∨
      ∃ σ' v', ((resize rt σ₁ (off + data.length) v).bind fun (σ, v) =>
        (poke σ v.ptr off data).map fun σ => (σ, v)) = .ok (σ', v') ∧
          Loosened σ₀ (writeAt 0 bytes off data) σ' v' := by
  rcases resize_done rt hm hlen with hfull | ⟨σ₂, v₂, hresize, hm₂⟩
  · left
    rw [hfull]
    rfl
  · right
    have hlen₂ : v₂.len = off + data.length := by
      rw [hm₂.len, length_padTo]
      omega
    have hroom := hm₂.len_cap
    obtain ⟨σ', hpoke, hm'⟩ := hm₂.poke off v₂.len data (writeAt 0 bytes off data) (by omega) hroom
      (by rw [length_writeAt]; omega) fun σ' _ hin => hin (by omega)
    refine ⟨σ', v₂, ?_, hm'⟩
    rw [hresize]
    show (poke σ₂ v₂.ptr off data).map _ = _
    rw [hpoke]
    rfl

theorem writeBytes_done (rt : Runtime) (h : Inv .nothing σ) (hb : σ.slots buf = some b)
    (hbytes : contents σ buf = some bytes) (offset : Word) (data : List UInt8) (hdata : data ≠ []) (hsmall : data.length < 2 ^ 31) :
    writeBytes rt σ buf offset data = .error .outOfMemory ∨
      ∃ σ', writeBytes rt σ buf offset data = .ok σ' ∧
        Done σ buf (some (if 0 ≤ offset.toInt ∧ offset.toInt + data.length < 2 ^ 63 then
          writeAt 0 bytes offset.toInt.toNat data else bytes)) σ' := by
  obtain ⟨hlen, -⟩ := read_of h hb hbytes
  have hbuf := (h.slots buf b hb).1
  unfold writeBytes
  by_cases hin : 0 ≤ offset.toInt ∧ offset.toInt + data.length < 2 ^ 63
  · rw [if_pos hin, if_neg (by simp only [not_or]; exact ⟨hbuf, by omega, by omega, by omega⟩), header_of hb]
    show (if offset.toInt.toNat + data.length ≤ b.len then copyFromSlice rt σ buf offset.toInt.toNat data
        else _ : Outcome Heap) = _ ∨
      ∃ σ', (if offset.toInt.toNat + data.length ≤ b.len then copyFromSlice rt σ buf offset.toInt.toNat data
        else _ : Outcome Heap) = .ok σ' ∧ _
    split_ifs with hend
    · have hedit : writeAt 0 bytes offset.toInt.toNat data = overwrite bytes offset.toInt.toNat data := by
        unfold writeAt
        rw [padTo_of_le (by omega)]
      rw [hedit]
      exact copyFromSlice_done rt h hb hbytes hdata (by omega)
    · exact withVec_done rt h hb hbytes _ _ fun σ₀ σ₁ v hm => writePast_done (by omega) hm
  · rw [if_neg hin, if_pos, ← hbytes]
    · exact .inr ⟨σ, rfl, Done.self h⟩
    · omega

theorem oliveBufWrite_eq (order : Order) (width : Width) (offset val : Word) :
    oliveBufWrite rt σ order width buf offset val =
      writeBytes rt σ buf offset (toBytes order width.bytes val.toNat) := by
  cases order <;> cases width <;> rfl

theorem oliveBufRead_eq (order : Order) (width : Width) (offset : Word) :
    oliveBufRead σ order width buf offset = readNumber σ order width.bytes buf offset := by
  cases order <;> cases width <;> rfl

theorem Width.bounds (width : Width) : 0 < width.bytes ∧ width.bytes < 2 ^ 31 := by
  cases width <;> exact ⟨by decide, by decide⟩

theorem Inv.len_small (h : Inv .nothing σ) (hb : σ.slots buf = some b) : b.len < 2 ^ 63 := by
  rcases Nat.eq_zero_or_pos b.len with hzero | hpos
  · omega
  · obtain ⟨owner, v, hv, -, hroom, -⟩ := h.behind hb hpos
    exact Nat.lt_of_le_of_lt hroom (h.holds owner v hv).small

theorem readNumber_eq (h : Inv .nothing σ) (hb : σ.slots buf = some b) (hbytes : contents σ buf = some bytes)
    (order : Order) (width : Width) (offset : Word) :
    readNumber σ order width.bytes buf offset = .ok (numberAt order width bytes offset) := by
  obtain ⟨hlen, hread⟩ := read_of h hb hbytes
  have hbuf := (h.slots buf b hb).1
  have hsmall := h.len_small hb
  unfold readNumber readBytes numberAt
  by_cases hin : 0 ≤ offset.toInt ∧ offset.toInt + width.bytes ≤ bytes.length
  · rw [if_pos hin, if_neg (by simp only [not_or]; exact ⟨hbuf, by omega, by omega⟩), header_of hb]
    show ((if (b.len : Int) < offset.toInt + width.bytes then .ok none else (b.asSlice σ).map _ :
      Outcome (Option (List UInt8))).map _ : Outcome Word) = _
    rw [if_neg (by omega), hread]
    rfl
  · rw [if_neg hin]
    split_ifs with hguard
    · rfl
    · rw [header_of hb]
      show ((if (b.len : Int) < offset.toInt + width.bytes then .ok none else (b.asSlice σ).map _ :
        Outcome (Option (List UInt8))).map _ : Outcome Word) = _
      rw [if_pos (by omega)]
      rfl

theorem oliveBufGet_eq (h : Inv .nothing σ) (hb : σ.slots buf = some b) (hbytes : contents σ buf = some bytes)
    (idx : Word) : oliveBufGet σ buf idx = .ok (if 0 ≤ idx.toInt then
      (bytes[idx.toInt.toNat]?).elim (-1) fun v => BitVec.ofNat 64 v.toNat else -1) := by
  obtain ⟨-, hread⟩ := read_of h hb hbytes
  have hbuf := (h.slots buf b hb).1
  unfold oliveBufGet
  by_cases hin : 0 ≤ idx.toInt
  · rw [if_pos hin, if_neg (not_or.mpr ⟨hbuf, by omega⟩), header_of hb]
    show ((b.asSlice σ).map _ : Outcome Word) = _
    rw [hread]
    rfl
  · rw [if_neg hin, if_pos (.inr (by omega))]

theorem operand_eq (h : Inv .nothing σ) (hb : σ.slots buf = some b) (hbytes : contents σ buf = some bytes) :
    operand σ buf = .ok bytes := by
  unfold operand
  rw [if_neg (h.slots buf b hb).1, header_of hb]
  exact (read_of h hb hbytes).2

theorem oliveBufSlice_eq (rt : Runtime) (h : Inv .nothing σ) (hb : σ.slots buf = some b)
    (hbytes : contents σ buf = some bytes) (start stop : Word) : oliveBufSlice rt σ buf start stop =
      newBuf rt σ ((bytes.take stop.toInt.toNat).drop start.toInt.toNat) := by
  have hmax (w : Word) : (max w.toInt 0).toNat = w.toInt.toNat := by omega
  unfold oliveBufSlice
  rw [if_neg (h.slots buf b hb).1, header_of hb]
  show (b.asSlice σ).bind _ = _
  rw [(read_of h hb hbytes).2]
  show (if min (max stop.toInt 0).toNat bytes.length < min (max start.toInt 0).toNat bytes.length then
      newBuf rt σ [] else newBuf rt σ ((bytes.take (min (max stop.toInt 0).toNat bytes.length)).drop
        (min (max start.toInt 0).toNat bytes.length))) = _
  rw [hmax, hmax]
  exact (apply_ite (newBuf rt σ) _ _ _).symm.trans (congrArg (newBuf rt σ) (slice_clip _ _))

theorem oliveBufGetslice_eq (rt : Runtime) (h : Inv .nothing σ) (hb : σ.slots buf = some b)
    (hbytes : contents σ buf = some bytes) (start stop step flags : Word)
    (hstep : (Slice.ofFlags start.toInt stop.toInt step.toInt flags).stride ≠ 0)
    (hfits : ∀ i ∈ (Slice.ofFlags start.toInt stop.toInt step.toInt flags).pyIndices bytes.length,
      i + (Slice.ofFlags start.toInt stop.toInt step.toInt flags).stride < 2 ^ 63) :
    oliveBufGetslice rt σ buf start stop step flags =
      newBuf rt σ ((Slice.ofFlags start.toInt stop.toInt step.toInt flags).pyItems bytes) := by
  have hlow : -2 ^ 63 ≤ (Slice.ofFlags start.toInt stop.toInt step.toInt flags).step :=
    BitVec.le_toInt step
  unfold oliveBufGetslice
  rw [if_neg (h.slots buf b hb).1, header_of hb]
  show (b.asSlice σ).bind _ = _
  rw [(read_of h hb hbytes).2]
  show (sliceOf bytes (Slice.ofFlags start.toInt stop.toInt step.toInt flags)).elim _ _ = _
  rw [sliceOf_of_fits hlow hstep hfits]
  rfl

theorem allocated_done (rt : Runtime) (h : Inv .nothing σ) (cap : Nat) :
    ((allocate rt σ [] cap).bind fun (σ, v) => newVec rt σ v) = .error .outOfMemory ∨
      ∃ σ' a, ((allocate rt σ [] cap).bind fun (σ, v) => newVec rt σ v) = .ok (σ', a) ∧
        Creates σ [] σ' (.word a) ∧ Inv .nothing σ' ∧ Shared σ σ' := by
  rcases allocate_done rt h [] cap (Nat.zero_le _) with hfull | ⟨σ₁, v, halloc, hm, -⟩
  · left
    rw [hfull]
    rfl
  · rw [halloc]
    exact newVec_done rt hm

/-- The one buffer of an operation. -/
theorem buffer_of (h : Inv .nothing σ) (fits : Fits σ op) (hop : buf ∈ op.buffers) :
    ∃ b bytes, σ.slots buf = some b ∧ contents σ buf = some bytes := by
  obtain ⟨b, hb⟩ := fits.1 buf hop
  obtain ⟨bytes, hbytes, -, -⟩ := readable h hb
  exact ⟨b, bytes, hb, hbytes⟩

/-- A change of the bytes of one buffer. -/
theorem good_edit {r : Outcome Heap} (hstep : step rt σ op = done r) (hbytes : contents σ buf = some bytes)
    (hr : r = .error .outOfMemory ∨ ∃ σ', r = .ok σ' ∧ Done σ buf (some (edited bytes op)) σ')
    (hright : ∀ σ', Edits σ op buf σ' ∧ Shared σ σ' → Right σ op σ' .done) : Good rt σ op :=
  good_edits hstep hr fun σ' hdone => hright σ' ⟨⟨bytes, hbytes, hdone.contents⟩, hdone.shared⟩

theorem step_good (rt : Runtime) (h : Inv .nothing σ) (fits : Fits σ op) (clean : Clean σ op) :
    Good rt σ op := by
  cases op with
  | new cap =>
    exact good_creates rfl (allocated_done rt h _) fun σ' answer hcreates hshared => ⟨hcreates, hshared⟩
  | newZeroed len =>
    have hlen : (max len.toInt 0).toNat = len.toInt.toNat := by omega
    refine good_creates (r := newBuf rt σ (List.replicate len.toInt.toNat 0)) ?_ (newBuf_done rt h _)
      fun σ' answer hcreates hshared => ⟨hcreates, hshared⟩
    show answered .word (oliveBufNewZeroed rt σ len) = _
    unfold oliveBufNewZeroed
    rw [hlen]
  | push buf byte =>
    obtain ⟨b, bytes, hb, hbytes⟩ := buffer_of h fits (List.mem_singleton_self buf)
    have hone : toBytes .little 1 (byte &&& 0xff).toNat = [UInt8.ofNat byte.toNat] :=
      congrArg (fun x => [x]) (ofNat_low byte)
    have hpush := pushLe_done rt h hb hbytes 1 (byte &&& 0xff)
    rw [hone] at hpush
    exact good_edit rfl hbytes hpush fun σ' hedits => hedits
  | pushU16Le buf val =>
    obtain ⟨b, bytes, hb, hbytes⟩ := buffer_of h fits (List.mem_singleton_self buf)
    exact good_edit rfl hbytes (pushLe_done rt h hb hbytes 2 val) fun σ' hedits => hedits
  | pushU32Le buf val =>
    obtain ⟨b, bytes, hb, hbytes⟩ := buffer_of h fits (List.mem_singleton_self buf)
    exact good_edit rfl hbytes (pushLe_done rt h hb hbytes 4 val) fun σ' hedits => hedits
  | append buf data =>
    obtain ⟨b, bytes, hb, hbytes⟩ := buffer_of h fits (List.mem_singleton_self buf)
    exact good_edit rfl hbytes (append_done rt h hb hbytes data) fun σ' hedits => hedits
  | set buf idx val =>
    obtain ⟨b, bytes, hb, hbytes⟩ := buffer_of h fits (List.mem_singleton_self buf)
    exact good_edit rfl hbytes (oliveBufSet_done rt h hb hbytes idx val) fun σ' hedits => hedits
  | write order width buf offset val =>
    obtain ⟨b, bytes, hb, hbytes⟩ := buffer_of h fits (List.mem_singleton_self buf)
    obtain ⟨hpos, hsmall⟩ := width.bounds
    have hlen : (toBytes order width.bytes val.toNat).length = width.bytes := length_toBytes
    have hwrite := writeBytes_done rt h hb hbytes offset (toBytes order width.bytes val.toNat)
      (List.ne_nil_of_length_pos (by omega)) (by omega)
    rw [hlen, ← oliveBufWrite_eq] at hwrite
    exact good_edit rfl hbytes hwrite fun σ' hedits => hedits
  | realize buf =>
    obtain ⟨b, bytes, hb, hbytes⟩ := buffer_of h fits (List.mem_singleton_self buf)
    refine good_edit rfl hbytes ?_ fun σ' hedits => hedits
    rcases realize_done rt h hb hbytes with hfull | ⟨σ', b', hrealize, hdone, -, -⟩
    · exact .inl hfull
    · exact .inr ⟨σ', hrealize, hdone⟩
  | free buf =>
    obtain ⟨b, bytes, hb, -⟩ := buffer_of h fits (List.mem_singleton_self buf)
    exact good_edits rfl (.inr (free_done rt h hb)) fun σ' hdone => ⟨hdone.contents, hdone.shared⟩
  | concat a c =>
    obtain ⟨ba, x, ha, hx⟩ := buffer_of h fits (show a ∈ [a, c] from List.mem_cons_self)
    obtain ⟨bc, y, hc, hy⟩ := buffer_of h fits (show c ∈ [a, c] from List.mem_cons_of_mem _ List.mem_cons_self)
    refine good_creates (r := newBuf rt σ (x ++ y)) ?_ (newBuf_done rt h _)
      fun σ' answer hcreates hshared => ⟨x, y, hx, hy, hcreates, hshared⟩
    show answered .word (oliveBufConcat rt σ a c) = _
    unfold oliveBufConcat
    rw [operand_eq h ha hx, operand_eq h hc hy]
    rfl
  | slice buf start stop =>
    obtain ⟨b, bytes, hb, hbytes⟩ := buffer_of h fits (List.mem_singleton_self buf)
    exact good_creates (congrArg (answered .word) (oliveBufSlice_eq rt h hb hbytes start stop)) (newBuf_done rt h _)
      fun σ' answer hcreates hshared => ⟨bytes, hbytes, hcreates, hshared⟩
  | getslice buf start stop step flags =>
    obtain ⟨b, bytes, hb, hbytes⟩ := buffer_of h fits (List.mem_singleton_self buf)
    exact good_creates (congrArg (answered .word) (oliveBufGetslice_eq rt h hb hbytes start stop step flags
      fits.2 (clean bytes hbytes))) (newBuf_done rt h _)
      fun σ' answer hcreates hshared => ⟨bytes, hbytes, hcreates, hshared⟩
  | cloneBuf src =>
    obtain ⟨b, bytes, hb, hbytes⟩ := buffer_of h fits (List.mem_singleton_self src)
    exact good_creates rfl (cloneBuf_done rt h hb hbytes)
      fun σ' answer hcreates hshared => ⟨bytes, hbytes, hcreates, hshared⟩
  | len buf =>
    obtain ⟨b, bytes, hb, hbytes⟩ := buffer_of h fits (List.mem_singleton_self buf)
    have hlen : oliveBufLen σ buf = .ok bytes.length := by
      unfold oliveBufLen
      rw [if_neg (h.slots buf b hb).1, header_of hb]
      exact congrArg _ (read_of h hb hbytes).1
    exact good_tells h rfl hlen ⟨bytes, hbytes, rfl, rfl, Shared.refl σ⟩
  | get buf idx =>
    obtain ⟨b, bytes, hb, hbytes⟩ := buffer_of h fits (List.mem_singleton_self buf)
    exact good_tells h rfl (oliveBufGet_eq h hb hbytes idx) ⟨bytes, hbytes, rfl, rfl, Shared.refl σ⟩
  | read order width buf offset =>
    obtain ⟨b, bytes, hb, hbytes⟩ := buffer_of h fits (List.mem_singleton_self buf)
    have hread := (oliveBufRead_eq order width offset).trans (readNumber_eq h hb hbytes order width offset)
    exact good_tells h rfl hread ⟨bytes, hbytes, rfl, rfl, Shared.refl σ⟩
  | pyBytes bytes =>
    rcases newPyBytes_done rt h bytes with hfull | ⟨σ', py, hok, hinv, hnone, hbytes, hquiet⟩
    · left
      show answered .word (newPyBytes rt σ bytes) = _
      rw [hfull]
      rfl
    · refine .inr ⟨σ', .word py, ?_, hinv, py, rfl, hnone, hbytes, hquiet⟩
      show answered .word (newPyBytes rt σ bytes) = _
      rw [hok]
      rfl
  | pyWrap obj =>
    obtain ⟨o, ho, -⟩ := fits.2
    have hown : region .nothing σ (.object obj) = some o.parts := by
      show (σ.objects obj).map PyBytes.parts = _
      rw [ho]
      rfl
    obtain ⟨bytes, hslice, -⟩ := (h.holds _ _ hown).slice
    have hbytes : payload σ obj = some bytes := by
      unfold payload
      rw [ho]
      exact hslice
    exact good_creates rfl (wrap_done rt h ho hbytes)
      fun σ' answer hcreates hshared => ⟨bytes, hbytes, hcreates, hshared⟩
  | pyIncref obj =>
    obtain ⟨o, ho, -⟩ := fits.2
    obtain ⟨σ', hok, hinv, hquiet⟩ := pyIncref_done h ho
    refine .inr ⟨σ', .done, ?_, hinv, hquiet⟩
    show done (pyIncref σ obj) = _
    rw [hok]
    rfl
  | pyDecref obj =>
    obtain ⟨o, ho, hpos⟩ := fits.2
    obtain ⟨σ', hok, hinv, hquiet⟩ := pyDecref_done h ho hpos
    refine .inr ⟨σ', .done, ?_, hinv, hquiet⟩
    show done (pyDecref σ obj) = _
    rw [hok]
    rfl

end Steps

section Runs

variable {rt : Runtime} {σ₀ σ : Heap}

theorem Start.inv (h : Start σ) : Inv .nothing σ where
  holds owner v hv := by
    cases owner with
    | loose => cases hv
    | buffer buf =>
      have hv' : (σ.slots buf).bind OliveBytes.own = some v := hv
      rw [h.slots buf] at hv'
      cases hv'
    | object py =>
      have hv' : (σ.objects py).map PyBytes.parts = some v := hv
      rw [h.objects py] at hv'
      cases hv'
  apart owner owner' v v' hv := by
    cases owner with
    | loose => cases hv
    | buffer buf =>
      have hv' : (σ.slots buf).bind OliveBytes.own = some v := hv
      rw [h.slots buf] at hv'
      cases hv'
    | object py =>
      have hv' : (σ.objects py).map PyBytes.parts = some v := hv
      rw [h.objects py] at hv'
      cases hv'
  slots buf b hb := by
    rw [h.slots buf] at hb
    cases hb
  counted py o ho := by
    rw [h.objects py] at ho
    cases ho

theorem Run.inv (start : Start σ₀) (run : Run rt σ₀ σ) : Inv .nothing σ := by
  induction run with
  | start => exact start.inv
  | step before fits clean taken ih =>
    rcases step_good rt ih fits clean with hfull | ⟨σ', answer, hstep, hinv, -⟩
    · rw [hfull] at taken
      cases taken
    · rw [hstep] at taken
      cases taken
      exact hinv

/-- A number that is written is read, less the bits that do not fit. -/
theorem numberAt_write {order : Order} {width : Width} {bytes : List UInt8} {buf offset val : Word}
    (hoffset : 0 ≤ offset.toInt ∧ offset.toInt + width.bytes < 2 ^ 63) :
    numberAt order width (edited bytes (.write order width buf offset val)) offset =
      BitVec.ofNat 64 (val.toNat % 256 ^ width.bytes) := by
  have hedit : edited bytes (.write order width buf offset val) =
      writeAt 0 bytes offset.toInt.toNat (toBytes order width.bytes val.toNat) := if_pos hoffset
  have hlen : (toBytes order width.bytes val.toNat).length = width.bytes := length_toBytes
  have hread : ((writeAt 0 bytes offset.toInt.toNat (toBytes order width.bytes val.toNat)).drop
      offset.toInt.toNat).take width.bytes = toBytes order width.bytes val.toNat := by
    have h := read_writeAt 0 bytes offset.toInt.toNat (toBytes order width.bytes val.toNat)
    rwa [hlen] at h
  unfold numberAt
  rw [hedit, length_writeAt, hlen, if_pos (by omega), hread, ofBytes_toBytes]

theorem start_emptyHeap : Start emptyHeap :=
  ⟨fun _ => rfl, fun _ => rfl⟩

/-- A heap with one buffer of five zeros. -/
def fiveZeros : Heap :=
  (emptyHeap.store 0x1000 (some [0, 0, 0, 0, 0])).put 0x10
    (some { ptr := 0x1000, len := 5, cap := 5, py := 0 })

theorem run_fiveZeros : Run smallHeap emptyHeap fiveZeros := by
  have hstep : step smallHeap emptyHeap (.newZeroed 5) = .ok (fiveZeros, .word 0x10) := rfl
  have hfits : Fits emptyHeap (.newZeroed 5) := ⟨fun buf hbuf => (nomatch hbuf), trivial⟩
  have hclean : Clean emptyHeap (.newZeroed 5) := trivial
  exact .step .start hfits hclean hstep

end Runs

end Buffers

end Olive
