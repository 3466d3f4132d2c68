import KubeFdb.Lib.Run
import KubeFdb.Robustness.Model

/-!
# 参照モデルの不変条件

どの request の列を受け取っても、参照モデルの状態は壊れない。lease の表は二つある。鍵から lease への
`keyLeases` と、lease から鍵への `leases` である。

* `EtcdState.Valid` — どの状態でも成り立つこと
* `lease_tables_agree` — 二つの表は食い違わず、`LeaseRevoke` は lease に付いた鍵をちょうど消す
-/

namespace KubeFdb.Robustness

variable {V : Type} {s : EtcdState V} {bound : Int} {k key : Key} {id leaseID : Int}

/-! ## 不変条件 -/

/-- lease が鍵を持つこと。 -/
def EtcdState.Filed (s : EtcdState V) (id : Int) (k : Key) : Prop :=
  ∃ lease, s.leases.get? id = some lease ∧ lease.keys.get? k = some ()

/-- `bound` までの revision で書かれた状態。transaction の途中では、`bound` は次の revision である。 -/
structure EtcdState.Consistent (bound : Int) (s : EtcdState V) : Prop where
  positive : 1 ≤ s.revision
  compacted : s.compactRevision ≤ s.revision
  modified : ∀ k v, s.keyValues.get? k = some v → 2 ≤ v.modRevision ∧ v.modRevision ≤ bound
  noZero : s.leases.get? 0 = none
  named : ∀ id lease, s.leases.get? id = some lease → lease.leaseID = id
  attached : ∀ id k, s.Filed id k → s.keyLeases.get? k = some id
  live : ∀ k id, s.keyLeases.get? k = some id → (s.keyValues.get? k).isSome = true

def EtcdState.Valid (s : EtcdState V) : Prop := s.Consistent s.revision

theorem EtcdState.Consistent.mono (h : s.Consistent bound) {bound' : Int} (hb : bound ≤ bound') :
    s.Consistent bound' :=
  { h with modified := fun k v hv => ⟨(h.modified k v hv).1, (h.modified k v hv).2.trans hb⟩ }

theorem fresh_valid : (freshEtcdState : EtcdState V).Valid where
  positive := le_rfl
  compacted := show (-1 : Int) ≤ 1 by decide
  modified := fun k v hv => by cases hv
  noZero := rfl
  named := fun id lease h => by cases h
  attached := fun id k h => by obtain ⟨lease, hl, -⟩ := h; cases hl
  live := fun k id h => by cases h

/-! ## lease の表 -/

section

theorem detach_keyValues (s : EtcdState V) (key : Key) :
    (s.detachFromOldLease key).keyValues = s.keyValues := by
  unfold EtcdState.detachFromOldLease
  split <;> rfl

theorem detach_revision (s : EtcdState V) (key : Key) :
    (s.detachFromOldLease key).revision = s.revision := by
  unfold EtcdState.detachFromOldLease
  split <;> rfl

theorem detach_compactRevision (s : EtcdState V) (key : Key) :
    (s.detachFromOldLease key).compactRevision = s.compactRevision := by
  unfold EtcdState.detachFromOldLease
  split <;> rfl

theorem detach_keyLeases (s : EtcdState V) (key k : Key) :
    (s.detachFromOldLease key).keyLeases.get? k
      = if k = key then none else s.keyLeases.get? k := by
  unfold EtcdState.detachFromOldLease
  split
  · next hnone =>
    by_cases hk : k = key
    · rw [if_pos hk, hk, hnone]
    · rw [if_neg hk]
  · by_cases hk : k = key <;> simp [hk]

theorem detach_leases (s : EtcdState V) (key : Key) (id : Int) :
    (s.detachFromOldLease key).leases.get? id = (s.leases.get? id).map (fun lease =>
      if s.keyLeases.get? key = some id then
        { lease with keys := lease.keys.filter (fun k => decide (k ≠ key)) }
      else lease) := by
  unfold EtcdState.detachFromOldLease
  split
  · next hnone => simp [hnone]
  · next old hold =>
    rw [OrdMap.get?_mapValues]
    refine congrArg (fun f => (s.leases.get? id).map f) (funext fun lease => ?_)
    simp [hold, eq_comm]

/-- 鍵を外した後の lease。外した鍵は、どの lease にもない。 -/
theorem filed_detach (h : ∀ id k, s.Filed id k → s.keyLeases.get? k = some id) :
    (s.detachFromOldLease key).Filed id k ↔ s.Filed id k ∧ k ≠ key := by
  unfold EtcdState.Filed
  rw [detach_leases]
  constructor
  · rintro ⟨lease, hl, hk⟩
    obtain ⟨old, hold, rfl⟩ := Option.map_eq_some_iff.mp hl
    split at hk
    · next hkey =>
      rw [OrdMap.get?_filter] at hk
      by_cases hne : k = key
      · simp [hne] at hk
      · exact ⟨⟨old, hold, by simpa [hne] using hk⟩, hne⟩
    · next hkey =>
      refine ⟨⟨old, hold, hk⟩, fun hne => hkey ?_⟩
      rw [← hne]
      exact h id k ⟨old, hold, hk⟩
  · rintro ⟨⟨lease, hl, hk⟩, hne⟩
    refine ⟨_, by rw [hl]; rfl, ?_⟩
    show (if _ then _ else lease).keys.get? k = some ()
    split
    · rw [OrdMap.get?_filter, if_pos (by simpa using hne)]
      exact hk
    · exact hk

theorem attach_keyLeases (s : EtcdState V) (leaseID : Int) (key k : Key) :
    (s.attachToNewLease leaseID key).keyLeases.get? k
      = if k = key then some leaseID else s.keyLeases.get? k := by
  unfold EtcdState.attachToNewLease
  by_cases hk : k = key
  · rw [if_pos hk, hk, OrdMap.get?_set_self]
  · rw [if_neg hk, OrdMap.get?_set_of_ne hk]

theorem attach_leases (s : EtcdState V) (leaseID : Int) (key : Key) (id : Int) :
    (s.attachToNewLease leaseID key).leases.get? id = (s.leases.get? id).map (fun lease =>
      if id = leaseID then { lease with keys := lease.keys.set key () } else lease) := by
  unfold EtcdState.attachToNewLease
  rw [OrdMap.get?_mapValues]

/-- 鍵を付けた後の lease。 -/
theorem filed_attach (hl : (s.leases.get? leaseID).isSome = true) :
    (s.attachToNewLease leaseID key).Filed id k ↔ s.Filed id k ∨ (id = leaseID ∧ k = key) := by
  unfold EtcdState.Filed
  rw [attach_leases]
  constructor
  · rintro ⟨lease, hlease, hk⟩
    obtain ⟨old, hold, rfl⟩ := Option.map_eq_some_iff.mp hlease
    split at hk
    · next hid =>
      by_cases hne : k = key
      · exact Or.inr ⟨hid, hne⟩
      · rw [OrdMap.get?_set_of_ne hne] at hk
        exact Or.inl ⟨old, hold, hk⟩
    · exact Or.inl ⟨old, hold, hk⟩
  · rintro (⟨lease, hlease, hk⟩ | ⟨rfl, rfl⟩)
    · refine ⟨_, by rw [hlease]; rfl, ?_⟩
      show (if _ then _ else lease).keys.get? k = some ()
      split
      · by_cases hne : k = key
        · rw [hne, OrdMap.get?_set_self]
        · rw [OrdMap.get?_set_of_ne hne]
          exact hk
      · exact hk
    · obtain ⟨lease, hlease⟩ := Option.isSome_iff_exists.mp hl
      refine ⟨_, by rw [hlease]; rfl, ?_⟩
      show (if _ then _ else lease).keys.get? k = some ()
      rw [if_pos rfl, OrdMap.get?_set_self]

theorem isSome_detach (s : EtcdState V) (key : Key) (id : Int) :
    ((s.detachFromOldLease key).leases.get? id).isSome = (s.leases.get? id).isSome := by
  rw [detach_leases, Option.isSome_map]

theorem isSome_attach (s : EtcdState V) (leaseID : Int) (key : Key) (id : Int) :
    ((s.attachToNewLease leaseID key).leases.get? id).isSome = (s.leases.get? id).isSome := by
  rw [attach_leases, Option.isSome_map]

/-- 鍵を外しても、壊れない。 -/
theorem EtcdState.Consistent.detach (h : s.Consistent bound) (key : Key) :
    (s.detachFromOldLease key).Consistent bound where
  positive := by rw [detach_revision]; exact h.positive
  compacted := by rw [detach_revision, detach_compactRevision]; exact h.compacted
  modified := by rw [detach_keyValues]; exact h.modified
  noZero := by rw [detach_leases, h.noZero]; rfl
  named := fun id lease hl => by
    rw [detach_leases] at hl
    obtain ⟨old, hold, rfl⟩ := Option.map_eq_some_iff.mp hl
    split
    · exact h.named id old hold
    · exact h.named id old hold
  attached := fun id k hf => by
    obtain ⟨hf, hne⟩ := (filed_detach h.attached).mp hf
    rw [detach_keyLeases, if_neg hne]
    exact h.attached id k hf
  live := fun k id hk => by
    rw [detach_keyLeases] at hk
    rw [detach_keyValues]
    split at hk
    · cases hk
    · exact h.live k id hk

/-- どの lease にも付いていない、値のある鍵を付けても、壊れない。 -/
theorem EtcdState.Consistent.attach (h : s.Consistent bound)
    (hl : (s.leases.get? leaseID).isSome = true) (hfree : s.keyLeases.get? key = none)
    (hk : (s.keyValues.get? key).isSome = true) :
    (s.attachToNewLease leaseID key).Consistent bound where
  positive := h.positive
  compacted := h.compacted
  modified := h.modified
  noZero := by rw [attach_leases, h.noZero]; rfl
  named := fun id lease hlease => by
    rw [attach_leases] at hlease
    obtain ⟨old, hold, rfl⟩ := Option.map_eq_some_iff.mp hlease
    split
    · exact h.named id old hold
    · exact h.named id old hold
  attached := fun id k hf => by
    rw [attach_keyLeases]
    rcases (filed_attach hl).mp hf with hf | ⟨rfl, rfl⟩
    · have hkey := h.attached id k hf
      rw [if_neg (fun he => by rw [he, hfree] at hkey; cases hkey)]
      exact hkey
    · rw [if_pos rfl]
  live := fun k id hkey => by
    rw [attach_keyLeases] at hkey
    split at hkey
    · next he => rw [he]; exact hk
    · exact h.live k id hkey

/-- 値を書いても、壊れない。 -/
theorem EtcdState.Consistent.put (h : s.Consistent bound) (hb : 2 ≤ bound) (key : Key) (v : V) :
    EtcdState.Consistent bound
      { s with keyValues := s.keyValues.set key ⟨v, bound, 0⟩ } where
  positive := h.positive
  compacted := h.compacted
  modified := fun k w hw => by
    change (s.keyValues.set key _).get? k = some w at hw
    by_cases hk : k = key
    · rw [hk, OrdMap.get?_set_self] at hw
      cases hw
      exact ⟨hb, le_rfl⟩
    · rw [OrdMap.get?_set_of_ne hk] at hw
      exact h.modified k w hw
  noZero := h.noZero
  named := h.named
  attached := h.attached
  live := fun k id hk => by
    show ((s.keyValues.set key _).get? k).isSome = true
    by_cases he : k = key
    · rw [he, OrdMap.get?_set_self]
      rfl
    · rw [OrdMap.get?_set_of_ne he]
      exact h.live k id hk

/-- lease に付いていない鍵を消しても、壊れない。 -/
theorem EtcdState.Consistent.erase (h : s.Consistent bound) {p : Key → Bool}
    (hfree : ∀ k id, s.keyLeases.get? k = some id → p k = true) :
    EtcdState.Consistent bound { s with keyValues := s.keyValues.filter p } where
  positive := h.positive
  compacted := h.compacted
  modified := fun k v hv => by
    change (s.keyValues.filter p).get? k = some v at hv
    rw [OrdMap.get?_filter] at hv
    split at hv
    · exact h.modified k v hv
    · cases hv
  noZero := h.noZero
  named := h.named
  attached := h.attached
  live := fun k id hk => by
    show ((s.keyValues.filter p).get? k).isSome = true
    rw [OrdMap.get?_filter, if_pos (hfree k id hk)]
    exact h.live k id hk

theorem detach_with_keyValues (s : EtcdState V) (keyValues : OrdMap Key (ValueRevision V))
    (key : Key) :
    EtcdState.detachFromOldLease { s with keyValues := keyValues } key
      = { s.detachFromOldLease key with keyValues := keyValues } := by
  unfold EtcdState.detachFromOldLease
  cases hk : s.keyLeases.get? key with
  | none => simp only
  | some old => simp only

end

/-! ## 操作 -/

/-- 操作一つ。進まない操作は状態を変えない。 -/
theorem applyOperation_consistent (h : s.Consistent (s.revision + 1)) (op : Operation V) :
    (s.applyOperation op).1.Consistent (s.revision + 1) ∧
      (s.applyOperation op).1.revision = s.revision ∧
      ((s.applyOperation op).2.2 = false → (s.applyOperation op).1 = s) := by
  cases op with
  | range options => exact ⟨h, rfl, fun _ => rfl⟩
  | put options =>
    simp only [EtcdState.applyOperation]
    by_cases hno : options.leaseID ≠ 0 ∧ (s.leases.get? options.leaseID).isSome = false
    · rw [if_pos hno]
      exact ⟨h, rfl, fun _ => rfl⟩
    · rw [if_neg hno]
      have hdetached := (h.put (by have := h.positive; omega) options.key options.value).detach
        options.key
      refine ⟨?_, ?_, fun hf => by cases hf⟩
      · by_cases hlease : (s.leases.get? options.leaseID).isSome = true
        · rw [if_pos hlease]
          refine hdetached.attach ?_ ?_ ?_
          · rw [isSome_detach]
            exact hlease
          · rw [detach_keyLeases, if_pos rfl]
          · rw [detach_keyValues, OrdMap.get?_set_self]
            rfl
        · rw [if_neg hlease]
          exact hdetached
      · split
        · exact detach_revision _ _
        · exact detach_revision _ _
  | delete key =>
    simp only [EtcdState.applyOperation]
    by_cases hsome : (s.keyValues.get? key).isSome = true
    · rw [if_pos hsome]
      refine ⟨?_, detach_revision _ _, fun hf => by cases hf⟩
      rw [detach_with_keyValues, ← detach_keyValues s key]
      refine (h.detach key).erase fun k id hk => ?_
      rw [detach_keyLeases] at hk
      split at hk
      · cases hk
      · next hne => exact decide_eq_true hne
    · rw [if_neg hsome]
      exact ⟨h, rfl, fun _ => rfl⟩

theorem applyOperations_consistent : ∀ (ops : List (Operation V)) {s : EtcdState V},
    s.Consistent (s.revision + 1) →
    (s.applyOperations ops).1.Consistent (s.revision + 1) ∧
      (s.applyOperations ops).1.revision = s.revision ∧
      ((s.applyOperations ops).2.2 = false → (s.applyOperations ops).1 = s)
  | [], s, h => ⟨h, rfl, fun _ => rfl⟩
  | op :: ops, s, h => by
    obtain ⟨h₁, hrev₁, hsame₁⟩ := applyOperation_consistent h op
    obtain ⟨h₂, hrev₂, hsame₂⟩ := applyOperations_consistent ops (hrev₁.symm ▸ h₁)
    rw [hrev₁] at h₂ hrev₂
    refine ⟨h₂, hrev₂, fun hf => ?_⟩
    obtain ⟨hf₁, hf₂⟩ := Bool.or_eq_false_iff.mp hf
    exact (hsame₂ hf₂).trans (hsame₁ hf₁)

theorem applyOperation_compactRevision (s : EtcdState V) (op : Operation V) :
    (s.applyOperation op).1.compactRevision = s.compactRevision := by
  cases op with
  | range options => rfl
  | put options =>
    simp only [EtcdState.applyOperation]
    split
    · rfl
    · split
      · exact detach_compactRevision _ options.key
      · exact detach_compactRevision _ options.key
  | delete key =>
    simp only [EtcdState.applyOperation]
    split
    · rw [detach_compactRevision]
    · rfl

/-- transaction の終わりに、書いた操作があれば revision を進める。 -/
def EtcdState.finish (applied : EtcdState V × List (OperationResult V) × Bool) : EtcdState V :=
  if applied.2.2 then { applied.1 with revision := applied.1.revision + 1 } else applied.1

theorem finish_valid (h : s.Valid) (ops : List (Operation V)) :
    (EtcdState.finish (s.applyOperations ops)).Valid := by
  obtain ⟨h', hrev, hsame⟩ := applyOperations_consistent ops
    (h.mono (by omega : s.revision ≤ s.revision + 1))
  unfold EtcdState.finish
  split
  · show EtcdState.Consistent ((s.applyOperations ops).1.revision + 1) _
    rw [hrev]
    refine { h' with positive := ?_, compacted := ?_ }
    · have := h.positive
      show 1 ≤ s.revision + 1
      omega
    · have := hrev ▸ h'.compacted
      show (s.applyOperations ops).1.compactRevision ≤ s.revision + 1
      omega
  · next hflag =>
    rw [hsame (by simpa using hflag)]
    exact h

theorem applyOperations_compactRevision (ops : List (Operation V)) (s : EtcdState V) :
    (s.applyOperations ops).1.compactRevision = s.compactRevision := by
  induction ops generalizing s with
  | nil => rfl
  | cons op ops ih => exact (ih _).trans (applyOperation_compactRevision s op)

theorem finish_compactRevision (s : EtcdState V) (ops : List (Operation V)) :
    (EtcdState.finish (s.applyOperations ops)).compactRevision = s.compactRevision := by
  unfold EtcdState.finish
  split <;> exact applyOperations_compactRevision ops s

theorem step_range_state (st : EtcdState V) (options : RangeOptions) (revision : Int) :
    (st.step (.range options revision)).1 = st := by
  simp only [EtcdState.step, EtcdState.stepRange]
  split
  · rfl
  · split
    · rfl
    · split <;> rfl

/-- `compact` は、状態を変えないか、compact した revision だけを進める。 -/
theorem step_compact_state (s : EtcdState V) (revision : Int) :
    (s.step (.compact revision)).1 = s ∨ revision ≤ s.revision ∧
      (s.step (.compact revision)).1 = { s with compactRevision := revision } := by
  simp only [EtcdState.step, EtcdState.stepCompact]
  split
  · exact Or.inl rfl
  · split
    · exact Or.inl rfl
    · next hle => exact Or.inr ⟨not_lt.mp hle, rfl⟩

/-- compaction のほかの request は、compaction の revision を変えない。 -/
theorem step_compactRevision (s : EtcdState V) {request : Request V}
    (hr : ∀ revision, request ≠ .compact revision) :
    (s.step request).1.compactRevision = s.compactRevision := by
  cases request with
  | range options revision => rw [step_range_state]
  | txn request => exact finish_compactRevision s _
  | leaseGrant leaseID =>
    simp only [EtcdState.step, EtcdState.stepLeaseGrant]
    split <;> rfl
  | leaseRevoke leaseID => rfl
  | defragment => rfl
  | compact revision => exact absurd rfl (hr revision)

theorem stepTxn_valid (h : s.Valid) (request : TxnRequest V) : (s.stepTxn request).1.Valid :=
  finish_valid h _

/-! ## lease の request -/

theorem stepLeaseGrant_valid (h : s.Valid) (leaseID : Int) : (s.stepLeaseGrant leaseID).1.Valid := by
  unfold EtcdState.stepLeaseGrant
  split
  · exact h
  · next hne =>
    refine { h with noZero := ?_, named := ?_, attached := ?_ }
    · show (s.leases.set leaseID _).get? 0 = none
      rw [OrdMap.get?_set_of_ne (Ne.symm hne)]
      exact h.noZero
    · intro id lease hl
      change (s.leases.set leaseID _).get? id = some lease at hl
      by_cases hid : id = leaseID
      · rw [hid, OrdMap.get?_set_self] at hl
        cases hl
        exact hid.symm
      · rw [OrdMap.get?_set_of_ne hid] at hl
        exact h.named id lease hl
    · rintro id k ⟨lease, hl, hk⟩
      change (s.leases.set leaseID _).get? id = some lease at hl
      by_cases hid : id = leaseID
      · rw [hid, OrdMap.get?_set_self] at hl
        cases hl
        cases hk
      · rw [OrdMap.get?_set_of_ne hid] at hl
        exact h.attached id k ⟨lease, hl, hk⟩

/-- 消される鍵は、lease に付いた鍵である。 -/
theorem mem_leasedKeys (h : s.Valid) : k ∈ s.leasedKeys id ↔ s.Filed id k := by
  unfold EtcdState.leasedKeys EtcdState.Filed
  cases hl : s.leases.get? id with
  | none => simp
  | some lease =>
    simp only [List.mem_filter, List.mem_map, Option.some.injEq, exists_eq_left']
    constructor
    · rintro ⟨⟨⟨k', u⟩, he, rfl⟩, -⟩
      exact OrdMap.get?_eq_some_iff.mpr he
    · intro hk
      exact ⟨⟨(k, ()), OrdMap.get?_eq_some_iff.mp hk, rfl⟩,
        h.live k id (h.attached id k ⟨lease, hl, hk⟩)⟩

/-- revoke の後の lease。 -/
theorem filed_revoke :
    (s.stepLeaseRevoke leaseID).1.Filed id k ↔ s.Filed id k ∧ id ≠ leaseID := by
  unfold EtcdState.Filed
  show (∃ lease, (s.leases.filter _).get? id = some lease ∧ _) ↔ _
  rw [OrdMap.get?_filter]
  by_cases hid : id = leaseID <;> simp [hid]

theorem revoke_keyLeases (h : s.Valid) :
    (s.stepLeaseRevoke leaseID).1.keyLeases.get? k = some id ↔
      s.keyLeases.get? k = some id ∧ ¬ s.Filed leaseID k := by
  show (s.keyLeases.filter _).get? k = some id ↔ _
  rw [OrdMap.get?_filter, ← mem_leasedKeys h]
  by_cases hk : k ∈ s.leasedKeys leaseID <;> simp [hk]

theorem revoke_keyValues (h : s.Valid) (v : ValueRevision V) :
    (s.stepLeaseRevoke leaseID).1.keyValues.get? k = some v ↔
      s.keyValues.get? k = some v ∧ ¬ s.Filed leaseID k := by
  show (s.keyValues.filter _).get? k = some v ↔ _
  rw [OrdMap.get?_filter, ← mem_leasedKeys h]
  by_cases hk : k ∈ s.leasedKeys leaseID <;> simp [hk]

theorem revoke_revision (s : EtcdState V) (leaseID : Int) :
    (s.stepLeaseRevoke leaseID).1.revision
      = if s.leasedKeys leaseID = [] then s.revision else s.revision + 1 := rfl

theorem le_revoke_revision (s : EtcdState V) (leaseID : Int) :
    s.revision ≤ (s.stepLeaseRevoke leaseID).1.revision := by
  rw [revoke_revision]
  split <;> omega

theorem stepLeaseRevoke_valid (h : s.Valid) (leaseID : Int) :
    (s.stepLeaseRevoke leaseID).1.Valid where
  positive := h.positive.trans (le_revoke_revision s leaseID)
  compacted := h.compacted.trans (le_revoke_revision s leaseID)
  modified := fun k v hv => by
    obtain ⟨hlow, hhigh⟩ := h.modified k v ((revoke_keyValues h v).mp hv).1
    exact ⟨hlow, hhigh.trans (le_revoke_revision s leaseID)⟩
  noZero := by
    show (s.leases.filter _).get? 0 = none
    rw [OrdMap.get?_filter, h.noZero]
    split <;> rfl
  named := fun id lease hl => by
    change (s.leases.filter _).get? id = some lease at hl
    rw [OrdMap.get?_filter] at hl
    split at hl
    · exact h.named id lease hl
    · cases hl
  attached := fun id k hf => by
    obtain ⟨hf, hne⟩ := filed_revoke.mp hf
    have hkey := h.attached id k hf
    refine (revoke_keyLeases h).mpr ⟨hkey, fun hfiled => hne ?_⟩
    exact Option.some.inj (hkey.symm.trans (h.attached leaseID k hfiled))
  live := fun k id hk => by
    obtain ⟨hk, hnot⟩ := (revoke_keyLeases h).mp hk
    obtain ⟨v, hv⟩ := Option.isSome_iff_exists.mp (h.live k id hk)
    rw [(revoke_keyValues h v).mpr ⟨hv, hnot⟩]
    rfl

/-- 一手。 -/
theorem step_valid (h : s.Valid) (request : Request V) : (s.step request).1.Valid := by
  cases request with
  | range options revision =>
    rw [step_range_state]
    exact h
  | txn request => exact stepTxn_valid h request
  | leaseGrant leaseID => exact stepLeaseGrant_valid h leaseID
  | leaseRevoke leaseID => exact stepLeaseRevoke_valid h leaseID
  | defragment => exact h
  | compact revision =>
    rcases step_compact_state s revision with heq | ⟨hle, heq⟩
    · rw [heq]
      exact h
    · rw [heq]
      exact { h with compacted := hle }

/-! ## 逆向きの表 -/

/-- `keyLeases` の lease が、その鍵を持つこと。 -/
def EtcdState.Linked (s : EtcdState V) : Prop :=
  ∀ k id, s.keyLeases.get? k = some id → s.Filed id k

theorem EtcdState.Linked.detach (h : s.Linked)
    (ha : ∀ id k, s.Filed id k → s.keyLeases.get? k = some id) (key : Key) :
    (s.detachFromOldLease key).Linked := by
  intro k id hk
  rw [detach_keyLeases] at hk
  split at hk
  · cases hk
  · next hne => exact (filed_detach ha).mpr ⟨h k id hk, hne⟩

theorem EtcdState.Linked.attach (h : s.Linked) (hl : (s.leases.get? leaseID).isSome = true)
    (key : Key) : (s.attachToNewLease leaseID key).Linked := by
  intro k id hk
  rw [attach_keyLeases] at hk
  refine (filed_attach hl).mpr ?_
  split at hk
  · next he =>
    cases hk
    exact Or.inr ⟨rfl, he⟩
  · exact Or.inl (h k id hk)

theorem applyOperation_linked (h : s.Consistent bound) (hl : s.Linked) (op : Operation V) :
    (s.applyOperation op).1.Linked := by
  cases op with
  | range options => exact hl
  | put options =>
    simp only [EtcdState.applyOperation]
    split
    · exact hl
    · rw [detach_with_keyValues]
      split
      · next hlease =>
        exact EtcdState.Linked.attach (s := { s.detachFromOldLease options.key with keyValues := _ })
          (hl.detach h.attached options.key) (by rw [isSome_detach]; exact hlease) options.key
      · exact hl.detach h.attached options.key
  | delete key =>
    simp only [EtcdState.applyOperation]
    split
    · rw [detach_with_keyValues]
      exact hl.detach h.attached key
    · exact hl

theorem applyOperations_linked : ∀ (ops : List (Operation V)) {s : EtcdState V},
    s.Consistent (s.revision + 1) → s.Linked → (s.applyOperations ops).1.Linked
  | [], _, _, hl => hl
  | op :: ops, s, h, hl => by
    obtain ⟨h₁, hrev₁, -⟩ := applyOperation_consistent h op
    exact applyOperations_linked ops (hrev₁.symm ▸ h₁) (applyOperation_linked h hl op)

theorem finish_linked (h : s.Valid) (hl : s.Linked) (ops : List (Operation V)) :
    (EtcdState.finish (s.applyOperations ops)).Linked := by
  have happlied := applyOperations_linked ops (h.mono (by omega : s.revision ≤ s.revision + 1)) hl
  unfold EtcdState.finish
  split
  · exact happlied
  · exact happlied

/-- 生きている lease の ID を配り直さない request。 -/
def FreshGrant (s : EtcdState V) : Request V → Prop
  | .leaseGrant leaseID => s.leases.get? leaseID = none
  | _ => True

theorem step_linked (h : s.Valid) (hl : s.Linked) {request : Request V} (hf : FreshGrant s request) :
    (s.step request).1.Linked := by
  cases request with
  | range options revision =>
    rw [step_range_state]
    exact hl
  | txn request =>
    exact finish_linked h hl _
  | leaseGrant leaseID =>
    simp only [EtcdState.step, EtcdState.stepLeaseGrant]
    split
    · exact hl
    · intro k id hk
      obtain ⟨lease, hlease, hkey⟩ := hl k id hk
      refine ⟨lease, ?_, hkey⟩
      show (s.leases.set leaseID _).get? id = some lease
      rw [OrdMap.get?_set_of_ne ?_]
      · exact hlease
      · rintro rfl
        cases hlease.symm.trans hf
  | leaseRevoke leaseID =>
    intro k id hk
    obtain ⟨hk, hnot⟩ := (revoke_keyLeases h).mp hk
    exact filed_revoke.mpr ⟨hl k id hk, fun hid => hnot (hid ▸ hl k id hk)⟩
  | defragment => exact hl
  | compact revision =>
    rcases step_compact_state s revision with heq | ⟨-, heq⟩
    · rw [heq]
      exact hl
    · rw [heq]
      exact hl

/-! ## run -/

/-- request を一つ受け取る一手。 -/
def EtcdState.next (s : EtcdState V) (request : Request V) : Option (EtcdState V) :=
  some (s.step request).1

/-- request を順に受け取った状態。 -/
def EtcdState.after (s : EtcdState V) (requests : List (Request V)) : EtcdState V :=
  requests.foldl (fun s request => (s.step request).1) s

theorem runSteps_next : ∀ (requests : List (Request V)) {s : EtcdState V},
    runSteps EtcdState.next s requests = some (s.after requests)
  | [], _ => rfl
  | request :: requests, s => runSteps_cons.mpr ⟨(s.step request).1, rfl, runSteps_next requests⟩

theorem after_valid (requests : List (Request V)) : (freshEtcdState.after requests).Valid :=
  run_invariant (fun _ _ _ h hs => Option.some.inj hs ▸ step_valid h _) fresh_valid
    (runSteps_next requests)

theorem after_linked {requests : List (Request V)}
    (hf : StepsMeet EtcdState.next FreshGrant freshEtcdState requests) :
    (freshEtcdState.after requests).Linked :=
  (run_invariant_of FreshGrant (P := fun s : EtcdState V => s.Valid ∧ s.Linked)
    (fun _ _ _ h hok hs => Option.some.inj hs ▸ ⟨step_valid h.1 _, step_linked h.1 h.2 hok⟩)
    ⟨fresh_valid, fun k id hk => by cases hk⟩ hf (runSteps_next requests)).2

/-- **lease の二つの表は食い違わない。** どの request の列の後でも状態は壊れず、lease の持つ鍵は、値があってその
lease だけに付いている。生きている lease の ID を配り直さなければ、逆に、付いている鍵はその lease が持つ。
`LeaseRevoke` は lease の持つ鍵だけを消し、消す鍵があるときに限って revision を進める。 -/
theorem lease_tables_agree (requests : List (Request V)) :
    ∃ s, runSteps EtcdState.next freshEtcdState requests = some s ∧ s.Valid ∧
      (StepsMeet EtcdState.next FreshGrant freshEtcdState requests →
        ∀ k id, s.keyLeases.get? k = some id ↔ s.Filed id k) ∧
      ∀ id, (∀ k v, (s.step (.leaseRevoke id)).1.keyValues.get? k = some v ↔
          s.keyValues.get? k = some v ∧ ¬ s.Filed id k) ∧
        ((s.step (.leaseRevoke id)).1.revision = s.revision ↔ ∀ k, ¬ s.Filed id k) := by
  have hv := after_valid requests
  refine ⟨_, runSteps_next requests, hv, fun hf k id => ⟨after_linked hf k id, hv.attached id k⟩,
    fun id => ⟨fun k v => revoke_keyValues hv v, ?_⟩⟩
  show (EtcdState.stepLeaseRevoke _ id).1.revision = _ ↔ _
  rw [revoke_revision]
  constructor
  · intro hrev k hk
    rw [if_neg (List.ne_nil_of_mem ((mem_leasedKeys hv).mpr hk))] at hrev
    omega
  · intro hnone
    rw [if_pos (List.eq_nil_iff_forall_not_mem.mpr fun k hk => hnone k ((mem_leasedKeys hv).mp hk))]

/-- 生きている lease を配り直すと、鍵は付いたまま、その lease の revoke で消えなくなる。 -/
example : (freshEtcdState.after [.leaseGrant 5, .txn ⟨[], [.put ⟨[1], 7, 5⟩], []⟩,
      .leaseGrant 5] : EtcdState Nat).keyLeases.get? [1] = some 5 ∧
    (freshEtcdState.after [.leaseGrant 5, .txn ⟨[], [.put ⟨[1], 7, 5⟩], []⟩,
      .leaseGrant 5, .leaseRevoke 5] : EtcdState Nat).revision = 2 := by decide

end KubeFdb.Robustness
