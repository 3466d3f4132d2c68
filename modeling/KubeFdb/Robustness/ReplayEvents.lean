import KubeFdb.Lib.Updates
import KubeFdb.Robustness.EtcdRun
import KubeFdb.Robustness.History

/-!
# 再生の event と状態

再生は、revision ごとの状態と、watch に流れるはずの event を別々に残す。どの request の列でも、event を順に重ねると
状態になる。

* `step_changes` — 一手の event は、その一手が変えた値である
* `replay_resumes` — ある revision の状態に、その先の watch の event を重ねると、後の revision の状態になる
-/

namespace KubeFdb.Robustness

variable {V : Type} {s prev : EtcdState V} {acc : EtcdState V × EtcdReplay V}

/-! ## 一手の event -/

/-- event の表す更新。 -/
def PersistedEvent.change (e : PersistedEvent V) : Key × Option (ValueRevision V) :=
  (e.key, e.value.map (fun v => ⟨v, e.revision, 0⟩))

/-- 同じ ID の lease があること。transaction の間は変わらない。 -/
def SameLeases (prev s : EtcdState V) : Prop :=
  ∀ id, (s.leases.get? id).isSome = (prev.leases.get? id).isSome

/-- 操作の列の event。 -/
def operationEvents (prev : EtcdState V) (revision : Int) (ops : List (Operation V))
    (results : List (OperationResult V)) : List (PersistedEvent V) :=
  (ops.zip results).filterMap (fun x => operationEvent prev revision x.1 x.2)

theorem operationEvents_cons (revision : Int) (op : Operation V) (ops : List (Operation V))
    (result : OperationResult V) (results : List (OperationResult V)) :
    operationEvents prev revision (op :: ops) (result :: results)
      = (operationEvent prev revision op result).toList
        ++ operationEvents prev revision ops results := by
  simp only [operationEvents, List.zip_cons_cons]
  cases he : operationEvent prev revision op result with
  | none => rw [List.filterMap_cons_none (by exact he)]; rfl
  | some e => rw [List.filterMap_cons_some (by exact he)]; rfl

theorem operationEvent_revision {revision : Int} {op : Operation V} {result : OperationResult V}
    {e : PersistedEvent V} (he : operationEvent prev revision op result = some e) :
    e.revision = revision := by
  cases op with
  | range options => cases he
  | put options =>
    simp only [operationEvent] at he
    split at he
    · cases he
    · cases he
      rfl
  | delete key =>
    simp only [operationEvent] at he
    split at he
    · cases he
      rfl
    · cases he

/-- 操作一つ。 -/
theorem applyOperation_changes (hl : SameLeases prev s) (op : Operation V) :
    (s.applyOperation op).1.keyValues = s.keyValues.updateAll
      ((operationEvent prev (s.revision + 1) op (s.applyOperation op).2.1).toList.map
        PersistedEvent.change) ∧
      (∀ revision, (s.applyOperation op).2.2
        = (operationEvent prev revision op (s.applyOperation op).2.1).isSome) ∧
      SameLeases prev (s.applyOperation op).1 ∧ (s.applyOperation op).1.revision = s.revision := by
  cases op with
  | range options => exact ⟨rfl, fun _ => rfl, hl, rfl⟩
  | put options =>
    simp only [EtcdState.applyOperation, operationEvent, ← hl options.leaseID]
    by_cases hno : options.leaseID ≠ 0 ∧ (s.leases.get? options.leaseID).isSome = false
    · simp only [if_pos hno]
      exact ⟨rfl, fun _ => rfl, hl, trivial⟩
    · simp only [if_neg hno]
      refine ⟨?_, fun _ => rfl, ?_, ?_⟩
      · have hput : (s.keyValues.set options.key ⟨options.value, s.revision + 1, 0⟩)
            = s.keyValues.updateAll [(options.key, some ⟨options.value, s.revision + 1, 0⟩)] := rfl
        split
        · exact (detach_keyValues _ _).trans hput
        · exact (detach_keyValues _ _).trans hput
      · intro id
        rw [← hl id]
        split
        · rw [isSome_attach, isSome_detach]
        · rw [isSome_detach]
      · split
        · exact detach_revision _ _
        · exact detach_revision _ _
  | delete key =>
    simp only [EtcdState.applyOperation]
    by_cases hsome : (s.keyValues.get? key).isSome = true
    · simp only [if_pos hsome]
      have hev : ∀ revision, operationEvent prev revision (.delete key)
          { OperationResult.zero with deleted := 1 }
            = some ⟨.delete, key, none, revision, false⟩ := fun revision => by simp [operationEvent]
      refine ⟨?_, fun revision => by rw [hev]; rfl, fun id => ?_, detach_revision _ _⟩
      · rw [hev, detach_keyValues]
        refine OrdMap.eq_of_get?_eq fun k => ?_
        show _ = (s.keyValues.update (key, none)).get? k
        rw [OrdMap.get?_filter, OrdMap.get?_update]
        by_cases hk : k = key <;> simp [hk]
      · rw [isSome_detach, ← hl id]
    · simp only [if_neg hsome]
      exact ⟨rfl, fun _ => rfl, hl, trivial⟩

theorem applyOperations_changes (prev : EtcdState V) : ∀ (ops : List (Operation V)) {s : EtcdState V},
    SameLeases prev s →
    (s.applyOperations ops).1.keyValues = s.keyValues.updateAll
      ((operationEvents prev (s.revision + 1) ops (s.applyOperations ops).2.1).map
        PersistedEvent.change) ∧
    (∀ revision, (s.applyOperations ops).2.2 = true ↔
      operationEvents prev revision ops (s.applyOperations ops).2.1 ≠ []) ∧
    (s.applyOperations ops).1.revision = s.revision
  | [], s, _ => ⟨rfl, fun _ => by simp [EtcdState.applyOperations, operationEvents], rfl⟩
  | op :: ops, s, hl => by
    obtain ⟨hkv, hflag, hl₁, hrev⟩ := applyOperation_changes hl op
    obtain ⟨hkv', hflag', hrev'⟩ := applyOperations_changes prev ops hl₁
    rw [hrev] at hkv' hrev'
    refine ⟨?_, fun revision => ?_, hrev'⟩
    · simp only [EtcdState.applyOperations, operationEvents_cons, List.map_append,
        OrdMap.updateAll_append]
      rw [hkv', hkv]
    · simp only [EtcdState.applyOperations, operationEvents_cons, Bool.or_eq_true, ne_eq,
        List.append_eq_nil_iff, not_and_or]
      rw [hflag' revision, hflag revision]
      refine or_congr ?_ Iff.rfl
      cases operationEvent prev revision op (s.applyOperation op).2.1 <;> simp

/-- 一手の event と、その後の状態。 -/
structure Told (s s' : EtcdState V) (events : List (PersistedEvent V)) : Prop where
  keyValues : s'.keyValues = s.keyValues.updateAll (events.map PersistedEvent.change)
  revision : ∀ e ∈ events, e.revision = s'.revision
  advanced : (events = [] ∧ s'.revision = s.revision) ∨ (events ≠ [] ∧ s'.revision = s.revision + 1)

theorem stepTxn_told (s : EtcdState V) (request : TxnRequest V) :
    Told s (s.stepTxn request).1 (toWatchEvents s (.txn request) (s.stepTxn request).2) := by
  have hops : ∀ ops, Told s (EtcdState.finish (s.applyOperations ops))
      (operationEvents s (EtcdState.finish (s.applyOperations ops)).revision ops
        (s.applyOperations ops).2.1) := by
    intro ops
    obtain ⟨hkv, hflag, hrev⟩ := applyOperations_changes s ops (s := s) (fun _ => rfl)
    unfold EtcdState.finish
    split
    · next hf =>
      rw [← hrev] at hkv
      refine ⟨hkv, fun e he => ?_, Or.inr ⟨(hflag _).mp hf, congrArg (· + 1) hrev⟩⟩
      obtain ⟨x, -, hx⟩ := List.mem_filterMap.mp he
      exact operationEvent_revision hx
    · next hf =>
      have hnil : ∀ revision, operationEvents s revision ops (s.applyOperations ops).2.1 = [] :=
        fun revision => not_ne_iff.mp fun hne => hf ((hflag revision).mpr hne)
      rw [hnil] at hkv ⊢
      exact ⟨hkv, fun _ he => absurd he List.not_mem_nil, Or.inl ⟨rfl, hrev⟩⟩
  have heq : toWatchEvents s (.txn request) (s.stepTxn request).2
      = operationEvents s (s.stepTxn request).1.revision
        (if request.conditions.any (fun cond => !s.holds cond) then request.operationsOnFailure
          else request.operationsOnSuccess) (s.applyOperations
        (if request.conditions.any (fun cond => !s.holds cond) then request.operationsOnFailure
          else request.operationsOnSuccess)).2.1 := rfl
  rw [heq]
  exact hops _

theorem stepLeaseRevoke_told (s : EtcdState V) (leaseID : Int) :
    Told s (s.stepLeaseRevoke leaseID).1
      (toWatchEvents s (.leaseRevoke leaseID) (s.stepLeaseRevoke leaseID).2) where
  keyValues := by
    have hmap : (toWatchEvents s (.leaseRevoke leaseID) (s.stepLeaseRevoke leaseID).2).map
        PersistedEvent.change = (s.leasedKeys leaseID).map (fun key => (key, none)) := by
      rw [show toWatchEvents s (.leaseRevoke leaseID) (s.stepLeaseRevoke leaseID).2
        = (s.leasedKeys leaseID).map (fun key =>
          ⟨.delete, key, none, (s.stepLeaseRevoke leaseID).1.revision, false⟩) from rfl, List.map_map]
      rfl
    have hkv : (s.stepLeaseRevoke leaseID).1.keyValues
        = s.keyValues.filter (fun k => !(s.leasedKeys leaseID).contains k) := rfl
    rw [hmap, OrdMap.updateAll_erase, hkv]
    refine congrArg s.keyValues.filter (funext fun k => ?_)
    rw [Bool.eq_iff_iff]
    simp
  revision := fun e he => by
    obtain ⟨key, -, rfl⟩ := List.mem_map.mp he
    rfl
  advanced := by
    rw [show toWatchEvents s (.leaseRevoke leaseID) (s.stepLeaseRevoke leaseID).2
      = (s.leasedKeys leaseID).map (fun key =>
        ⟨.delete, key, none, (s.stepLeaseRevoke leaseID).1.revision, false⟩) from rfl,
      revoke_revision, ne_eq, List.map_eq_nil_iff]
    by_cases hnil : s.leasedKeys leaseID = []
    · exact Or.inl ⟨hnil, if_pos hnil⟩
    · exact Or.inr ⟨hnil, if_neg hnil⟩

/-- **一手の event は、その一手が変えた値である。** -/
theorem step_changes (s : EtcdState V) (request : Request V) :
    Told s (s.step request).1 (toWatchEvents s request (s.step request).2) := by
  -- event のない request では、値も revision も変わらない
  have hquiet : toWatchEvents s request (s.step request).2 = [] →
      (s.step request).1.keyValues = s.keyValues → (s.step request).1.revision = s.revision →
      Told s (s.step request).1 (toWatchEvents s request (s.step request).2) := by
    intro hev hkv hrev
    rw [hev]
    exact ⟨hkv, fun _ he => absurd he List.not_mem_nil, Or.inl ⟨rfl, hrev⟩⟩
  cases request with
  | range options revision =>
    exact hquiet rfl (by rw [step_range_state]) (by rw [step_range_state])
  | txn request => exact stepTxn_told s request
  | leaseGrant leaseID =>
    refine hquiet rfl ?_ ?_
    · simp only [EtcdState.step, EtcdState.stepLeaseGrant]
      split <;> rfl
    · simp only [EtcdState.step, EtcdState.stepLeaseGrant]
      split <;> rfl
  | leaseRevoke leaseID => exact stepLeaseRevoke_told s leaseID
  | defragment => exact hquiet rfl rfl rfl
  | compact revision =>
    rcases step_compact_state s revision with heq | ⟨-, heq⟩
    · exact hquiet rfl (by rw [heq]) (by rw [heq])
    · exact hquiet rfl (by rw [heq]) (by rw [heq])

/-! ## 再生 -/

/-- 再生したところまで、event が状態を表していること。 -/
structure Recounted (acc : EtcdState V × EtcdReplay V) : Prop where
  positive : 1 ≤ acc.1.revision
  length : (acc.2.revisionToEtcdState.length : Int) = acc.1.revision + 1
  sorted : acc.2.events.Pairwise (fun a b => a.revision ≤ b.revision)
  range : ∀ e ∈ acc.2.events, 2 ≤ e.revision ∧ e.revision ≤ acc.1.revision
  covered : ∀ n : Int, 2 ≤ n → n ≤ acc.1.revision → ∃ e ∈ acc.2.events, e.revision = n
  current : acc.1.keyValues = OrdMap.empty.updateAll (acc.2.events.map PersistedEvent.change)
  states : ∀ (n : Nat) (st : EtcdState V), acc.2.revisionToEtcdState[n]? = some st →
    st.revision = max n 1 ∧ st.keyValues = OrdMap.empty.updateAll
      ((atMost PersistedEvent.revision acc.2.events n).map PersistedEvent.change)

theorem recounted_init :
    Recounted ((freshEtcdState : EtcdState V), ⟨[freshEtcdState, freshEtcdState], []⟩) where
  positive := le_rfl
  length := rfl
  sorted := List.Pairwise.nil
  range := fun _ he => absurd he List.not_mem_nil
  covered := fun n h2 h1 => by
    change n ≤ 1 at h1
    omega
  current := rfl
  states := fun n st hst => by
    have hcases : n = 0 ∨ n = 1 := by
      have := (List.getElem?_eq_some_iff.mp hst).1
      simp only [List.length_cons, List.length_nil] at this
      omega
    rcases hcases with rfl | rfl
    · cases hst
      exact ⟨rfl, rfl⟩
    · cases hst
      exact ⟨rfl, rfl⟩

/-- event のない request は何も残さず、event のある request は状態を一つ残す。 -/
theorem replayStep_cases (acc : EtcdState V × EtcdReplay V) (request : Request V) :
    (toWatchEvents acc.1 request (acc.1.step request).2 = [] ∧
      (acc.1.step request).1.revision = acc.1.revision ∧
      replayStep acc request = ((acc.1.step request).1, acc.2)) ∨
    (toWatchEvents acc.1 request (acc.1.step request).2 ≠ [] ∧
      (acc.1.step request).1.revision = acc.1.revision + 1 ∧
      replayStep acc request = ((acc.1.step request).1,
        ⟨acc.2.revisionToEtcdState ++ [(acc.1.step request).1],
          acc.2.events ++ toWatchEvents acc.1 request (acc.1.step request).2⟩)) := by
  rcases (step_changes acc.1 request).advanced with ⟨hnil, hsame⟩ | ⟨hne, hnext⟩
  · exact Or.inl ⟨hnil, hsame, by simp [replayStep, hnil, hsame]⟩
  · have hneq : acc.1.revision ≠ (acc.1.step request).1.revision := by omega
    exact Or.inr ⟨hne, hnext, by simp [replayStep, hneq]⟩

theorem recounted_step (h : Recounted acc) (request : Request V) :
    Recounted (replayStep acc request) := by
  obtain ⟨hkv, hrev, -⟩ := step_changes acc.1 request
  have hpos := h.positive
  rcases replayStep_cases acc request with ⟨hnil, hsame, heq⟩ | ⟨hne, hnext, heq⟩
  · rw [hnil] at hkv
    rw [heq]
    exact ⟨hsame.symm ▸ h.positive, hsame.symm ▸ h.length, h.sorted, hsame.symm ▸ h.range,
      hsame.symm ▸ h.covered, hkv.trans h.current, h.states⟩
  · rw [heq]
    have hcurrent : (acc.1.step request).1.keyValues = OrdMap.empty.updateAll
        ((acc.2.events ++ toWatchEvents acc.1 request (acc.1.step request).2).map
          PersistedEvent.change) := by
      rw [List.map_append, OrdMap.updateAll_append, ← h.current, hkv]
    refine ⟨by show 1 ≤ (acc.1.step request).1.revision; omega, ?_, ?_, ?_, ?_, hcurrent, ?_⟩
    · show ((acc.2.revisionToEtcdState ++ [_]).length : Int) = (acc.1.step request).1.revision + 1
      rw [List.length_append, List.length_singleton, hnext]
      push_cast
      rw [h.length]
    · refine List.pairwise_append.mpr ⟨h.sorted, ?_, ?_⟩
      · exact List.pairwise_of_forall_mem_list fun a ha b hb => by rw [hrev a ha, hrev b hb]
      · intro a ha b hb
        have := (h.range a ha).2
        rw [hrev b hb]
        omega
    · intro e he
      show 2 ≤ e.revision ∧ e.revision ≤ (acc.1.step request).1.revision
      rcases List.mem_append.mp he with he | he
      · have := h.range e he
        omega
      · rw [hrev e he]
        omega
    · intro n h2 hn
      change n ≤ (acc.1.step request).1.revision at hn
      by_cases hold : n ≤ acc.1.revision
      · obtain ⟨e, he, hen⟩ := h.covered n h2 hold
        exact ⟨e, List.mem_append_left _ he, hen⟩
      · obtain ⟨e, he⟩ := List.exists_mem_of_ne_nil _ hne
        exact ⟨e, List.mem_append_right _ he, by rw [hrev e he]; omega⟩
    · intro n st hst
      have hlength := h.length
      change (acc.2.revisionToEtcdState ++ [(acc.1.step request).1])[n]? = some st at hst
      show st.revision = max n 1 ∧ st.keyValues = OrdMap.empty.updateAll
        ((atMost PersistedEvent.revision (acc.2.events ++ _) n).map PersistedEvent.change)
      by_cases hlt : n < acc.2.revisionToEtcdState.length
      · -- 新しい event は、前の revision の状態に届かない
        rw [List.getElem?_append_left hlt] at hst
        have hnone : (toWatchEvents acc.1 request (acc.1.step request).2).filter
            (fun e => decide (e.revision ≤ (n : Int))) = [] :=
          List.filter_eq_nil_iff.mpr fun e he hle => by
            have := of_decide_eq_true hle
            rw [hrev e he] at this
            omega
        rw [atMost, List.filter_append, hnone, List.append_nil]
        exact h.states n st hst
      · obtain rfl : n = acc.2.revisionToEtcdState.length := by
          have := (List.getElem?_eq_some_iff.mp hst).1
          rw [List.length_append, List.length_singleton] at this
          omega
        rw [List.getElem?_concat_length] at hst
        cases hst
        have hall : atMost PersistedEvent.revision
            (acc.2.events ++ toWatchEvents acc.1 request (acc.1.step request).2)
            (acc.2.revisionToEtcdState.length : Int)
            = acc.2.events ++ toWatchEvents acc.1 request (acc.1.step request).2 :=
          List.filter_eq_self.mpr fun e he => decide_eq_true (by
            rcases List.mem_append.mp he with he | he
            · have := (h.range e he).2
              omega
            · rw [hrev e he]
              omega)
        rw [hall]
        exact ⟨by omega, hcurrent⟩

theorem recounted_replayLoop (requests : List (Request V)) : Recounted (replayLoop requests) :=
  List.foldlRecOn requests replayStep recounted_init fun _ h request _ => recounted_step h request

/-! ## 作成と重複 -/

/-- 操作が書く鍵。 -/
def Operation.writeKey : Operation V → Option Key
  | .range _ => none
  | .put options => some options.key
  | .delete key => some key

/-- 一つの transaction が同じ鍵を二度書かないこと。 -/
def Request.DistinctWrites : Request V → Prop
  | .txn request => (request.operationsOnSuccess.filterMap Operation.writeKey).Nodup ∧
      (request.operationsOnFailure.filterMap Operation.writeKey).Nodup
  | _ => True

/-- 操作の event は、操作の書く鍵のものである。その前に鍵があったかどうかは、transaction の前の状態で分かる。 -/
theorem operationEvent_created {revision : Int} {op : Operation V} {e : PersistedEvent V}
    (hsame : ∀ key ∈ op.writeKey, s.keyValues.get? key = prev.keyValues.get? key)
    (he : operationEvent prev revision op (s.applyOperation op).2.1 = some e) :
    op.writeKey = some e.key ∧ e.isCreate = !(prev.keyValues.get? e.key).isSome := by
  cases op with
  | range options => cases he
  | put options =>
    simp only [operationEvent] at he
    split at he
    · cases he
    · cases he
      exact ⟨rfl, by simp⟩
  | delete key =>
    simp only [EtcdState.applyOperation, operationEvent] at he
    split at he
    · next hsome =>
      cases he
      refine ⟨rfl, ?_⟩
      rw [← hsame key rfl, hsome]
      rfl
    · cases he

/-- 操作は、書く鍵のほかを変えない。 -/
theorem applyOperation_get? (hl : SameLeases prev s) {op : Operation V}
    (hsame : ∀ key ∈ op.writeKey, s.keyValues.get? key = prev.keyValues.get? key) {key : Key}
    (hkey : op.writeKey ≠ some key) :
    (s.applyOperation op).1.keyValues.get? key = s.keyValues.get? key := by
  rw [(applyOperation_changes hl op).1]
  cases he : operationEvent prev (s.revision + 1) op (s.applyOperation op).2.1 with
  | none => rfl
  | some e =>
    have hop := (operationEvent_created hsame he).1
    show (s.keyValues.update e.change).get? key = _
    rw [OrdMap.get?_update, if_neg fun heq => hkey (by rw [hop, heq]; rfl)]

theorem operationEvents_created (prev : EtcdState V) (revision : Int) :
    ∀ (ops : List (Operation V)) {s : EtcdState V},
    SameLeases prev s → (ops.filterMap Operation.writeKey).Nodup →
    (∀ op ∈ ops, ∀ key ∈ op.writeKey, s.keyValues.get? key = prev.keyValues.get? key) →
    (∀ e ∈ operationEvents prev revision ops (s.applyOperations ops).2.1,
      e.isCreate = !(prev.keyValues.get? e.key).isSome) ∧
    ((operationEvents prev revision ops (s.applyOperations ops).2.1).map
      PersistedEvent.key).Sublist (ops.filterMap Operation.writeKey)
  | [], _, _, _, _ => ⟨fun _ he => absurd he List.not_mem_nil, List.Sublist.refl _⟩
  | op :: ops, s, hl, hnodup, hsame => by
    have hop := hsame op List.mem_cons_self
    obtain ⟨-, -, hl₁, -⟩ := applyOperation_changes hl op
    have hrest : (ops.filterMap Operation.writeKey).Nodup :=
      ((List.sublist_cons_self op ops).filterMap _).nodup hnodup
    obtain ⟨hcreated, hkeys⟩ := operationEvents_created prev revision ops hl₁ hrest
      fun op' hop' key hkey => by
        rw [applyOperation_get? hl hop fun heq => ?_]
        · exact hsame op' (List.mem_cons_of_mem _ hop') key hkey
        · rw [List.filterMap_cons_some heq] at hnodup
          exact (List.nodup_cons.mp hnodup).1 (List.mem_filterMap.mpr ⟨op', hop', hkey⟩)
    simp only [EtcdState.applyOperations, operationEvents_cons, List.map_append]
    cases he : operationEvent prev revision op (s.applyOperation op).2.1 with
    | none =>
      refine ⟨hcreated, ?_⟩
      cases hw : op.writeKey with
      | none =>
        rw [List.filterMap_cons_none hw]
        exact hkeys
      | some key =>
        rw [List.filterMap_cons_some hw]
        exact hkeys.cons key
    | some e =>
      obtain ⟨hw, hc⟩ := operationEvent_created hop he
      refine ⟨fun x hx => ?_, ?_⟩
      · rcases List.mem_cons.mp hx with rfl | hx
        · exact hc
        · exact hcreated x hx
      · rw [List.filterMap_cons_some hw]
        exact hkeys.cons_cons e.key

theorem isSome_of_mem_leasedKeys {id : Int} {key : Key} (h : key ∈ s.leasedKeys id) :
    (s.keyValues.get? key).isSome = true := by
  unfold EtcdState.leasedKeys at h
  split at h
  · cases h
  · exact (List.mem_filter.mp h).2

theorem leasedKeys_nodup (s : EtcdState V) (id : Int) : (s.leasedKeys id).Nodup := by
  unfold EtcdState.leasedKeys
  split
  · exact List.nodup_nil
  · next lease _ =>
    refine List.Nodup.filter _ ?_
    exact (List.pairwise_map.mpr lease.keys.sorted).imp fun hlt => hlt.ne

/-- 一手の event は、鍵が重ならず、その前に鍵がなかったことを正しく言う。 -/
theorem toWatchEvents_created (s : EtcdState V) {request : Request V}
    (hd : request.DistinctWrites) :
    (∀ e ∈ toWatchEvents s request (s.step request).2,
      e.isCreate = !(s.keyValues.get? e.key).isSome) ∧
    ((toWatchEvents s request (s.step request).2).map PersistedEvent.key).Nodup := by
  have hquiet : toWatchEvents s request (s.step request).2 = [] →
      (∀ e ∈ toWatchEvents s request (s.step request).2,
        e.isCreate = !(s.keyValues.get? e.key).isSome) ∧
      ((toWatchEvents s request (s.step request).2).map PersistedEvent.key).Nodup := by
    intro hnil
    rw [hnil]
    exact ⟨fun _ he => absurd he List.not_mem_nil, List.nodup_nil⟩
  cases request with
  | range options revision => exact hquiet rfl
  | txn request =>
    have hops : ∀ ops, (ops.filterMap Operation.writeKey).Nodup → ∀ revision,
        (∀ e ∈ operationEvents s revision ops (s.applyOperations ops).2.1,
          e.isCreate = !(s.keyValues.get? e.key).isSome) ∧
        ((operationEvents s revision ops (s.applyOperations ops).2.1).map
          PersistedEvent.key).Nodup := by
      intro ops hnodup revision
      obtain ⟨hcreated, hkeys⟩ := operationEvents_created s revision ops (s := s) (fun _ => rfl)
        hnodup fun _ _ _ _ => rfl
      exact ⟨hcreated, hkeys.nodup hnodup⟩
    refine hops (if request.conditions.any (fun cond => !s.holds cond) then
      request.operationsOnFailure else request.operationsOnSuccess) ?_
        (s.stepTxn request).1.revision
    split
    · exact hd.2
    · exact hd.1
  | leaseGrant leaseID => exact hquiet rfl
  | leaseRevoke leaseID =>
    refine ⟨fun e he => ?_, ?_⟩
    · obtain ⟨key, hkey, rfl⟩ := List.mem_map.mp he
      rw [isSome_of_mem_leasedKeys hkey]
      rfl
    · rw [show toWatchEvents s (.leaseRevoke leaseID) (s.step (.leaseRevoke leaseID)).2
        = (s.leasedKeys leaseID).map (fun key =>
          ⟨.delete, key, none, (s.stepLeaseRevoke leaseID).1.revision, false⟩) from rfl, List.map_map]
      exact (List.map_id _).symm ▸ leasedKeys_nodup s leaseID
  | defragment => exact hquiet rfl
  | compact revision => exact hquiet rfl

/-- event が、その前の revision に鍵がなかったかどうかを正しく言うこと。 -/
def EtcdReplay.Attests (r : EtcdReplay V) (e : PersistedEvent V) : Prop :=
  ∃ st, r.stateForRevision (e.revision - 1) = .ok st ∧
    e.isCreate = !(st.keyValues.get? e.key).isSome

/-- 再生の event は、revision と鍵の組が重ならず、作成を正しく言う。 -/
structure Attested (r : EtcdReplay V) : Prop where
  distinct : r.events.Pairwise (fun a b => (a.revision, a.key) ≠ (b.revision, b.key))
  created : ∀ e ∈ r.events, r.Attests e

theorem stateForRevision_ok {r : EtcdReplay V} {revision : Int} {st : EtcdState V}
    (h : r.stateForRevision revision = .ok st) :
    0 ≤ revision ∧ r.revisionToEtcdState[revision.toNat]? = some st := by
  unfold EtcdReplay.stateForRevision at h
  split at h
  · cases h
  · next hneg =>
    split at h
    · cases h
    · next hst =>
      cases h
      exact ⟨not_lt.mp hneg, hst⟩

/-- 状態を足しても、前の revision の状態は変わらない。 -/
theorem stateForRevision_append {r : EtcdReplay V} {revision : Int} {st : EtcdState V}
    (h : r.stateForRevision revision = .ok st) (sts : List (EtcdState V))
    (events : List (PersistedEvent V)) :
    EtcdReplay.stateForRevision ⟨r.revisionToEtcdState ++ sts, events⟩ revision = .ok st := by
  obtain ⟨h0, hst⟩ := stateForRevision_ok h
  unfold EtcdReplay.stateForRevision
  rw [if_neg (not_lt.mpr h0),
    List.getElem?_append_left (List.getElem?_eq_some_iff.mp hst).1, hst]

/-- 今の revision の状態。 -/
theorem Recounted.latest (h : Recounted acc) :
    ∃ st, acc.2.stateForRevision acc.1.revision = .ok st ∧ st.keyValues = acc.1.keyValues := by
  have hpos := h.positive
  have hlength := h.length
  obtain ⟨st, hst⟩ : ∃ st, acc.2.revisionToEtcdState[acc.1.revision.toNat]? = some st :=
    ⟨_, List.getElem?_eq_getElem (by omega)⟩
  refine ⟨st, ?_, ?_⟩
  · unfold EtcdReplay.stateForRevision
    rw [if_neg (by omega), hst]
  · have hall : atMost PersistedEvent.revision acc.2.events acc.1.revision = acc.2.events :=
      List.filter_eq_self.mpr fun e he => decide_eq_true (h.range e he).2
    rw [(h.states _ st hst).2, h.current, Int.toNat_of_nonneg (by omega), hall]

theorem attested_step (h : Recounted acc) (ha : Attested acc.2) {request : Request V}
    (hd : request.DistinctWrites) : Attested (replayStep acc request).2 := by
  have hrev := (step_changes acc.1 request).revision
  obtain ⟨hcreated, hkeys⟩ := toWatchEvents_created acc.1 hd
  rcases replayStep_cases acc request with ⟨-, -, heq⟩ | ⟨-, hnext, heq⟩
  · rw [heq]
    exact ha
  · rw [heq]
    refine ⟨List.pairwise_append.mpr ⟨ha.distinct, ?_, fun a hae b hb hab => ?_⟩, fun e he => ?_⟩
    · exact (List.pairwise_map.mp hkeys).imp fun hne heq => hne (congrArg Prod.snd heq)
    · have hle := (h.range a hae).2
      have hpair : a.revision = b.revision := congrArg Prod.fst hab
      rw [hrev b hb] at hpair
      omega
    · rcases List.mem_append.mp he with he | he
      · obtain ⟨st, hst, hc⟩ := ha.created e he
        exact ⟨st, stateForRevision_append hst _ _, hc⟩
      · -- 新しい event の前の状態は、今の revision の状態である
        obtain ⟨st, hst, hkv⟩ := h.latest
        refine ⟨st, ?_, by rw [hkv]; exact hcreated e he⟩
        rw [hrev e he, hnext, show acc.1.revision + 1 - 1 = acc.1.revision by omega]
        exact stateForRevision_append hst _ _

theorem attested_newReplay {requests : List (Request V)}
    (hd : ∀ request ∈ requests, request.DistinctWrites) : Attested (newReplay requests) :=
  (List.foldlRecOn (motive := fun acc => Recounted acc ∧ Attested acc.2) requests replayStep
    ⟨recounted_init, List.Pairwise.nil, fun _ he => absurd he List.not_mem_nil⟩
    fun _ h request hm => ⟨recounted_step h.1 request, attested_step h.1 h.2 (hd request hm)⟩).2

/-! ## watch -/

/-- `EventsForWatch`。`matches_` は etcd の `Event.Match` である。 -/
def EtcdReplay.eventsForWatch (matches_ : PersistedEvent V → WatchRequest → Bool)
    (r : EtcdReplay V) (watch : WatchRequest) : List (PersistedEvent V) :=
  r.events.filter (fun e => !(decide (e.revision < watch.revision) || !matches_ e watch))

/-- ある revision の状態に、その先の event を重ねる。 -/
theorem Recounted.resume (h : Recounted acc) {from_ to_ : Int} (hle : from_ ≤ to_)
    {st st' : EtcdState V} (hst : acc.2.stateForRevision from_ = .ok st)
    (hst' : acc.2.stateForRevision to_ = .ok st') (p : Key → Bool) :
    st'.keyValues.filter p = (st.keyValues.filter p).updateAll
      (((between PersistedEvent.revision acc.2.events from_ to_).filter
        (fun e => p e.key)).map PersistedEvent.change) := by
  obtain ⟨h0, hst⟩ := stateForRevision_ok hst
  obtain ⟨h0', hst'⟩ := stateForRevision_ok hst'
  have hkv := (h.states _ st hst).2
  have hkv' := (h.states _ st' hst').2
  rw [Int.toNat_of_nonneg h0] at hkv
  rw [Int.toNat_of_nonneg h0'] at hkv'
  rw [hkv', hkv, updateAll_resume h.sorted hle, OrdMap.filter_updateAll, List.filter_map]
  rfl

/-- **一覧の後に watch を続ける。** どの log の再生でも、ある revision の状態を watch の鍵で絞ったものに、次の
revision からの watch の event を重ねると、後の revision の状態を絞ったものになる。 -/
theorem replay_resumes (matches_ : PersistedEvent V → WatchRequest → Bool)
    (wanted : WatchRequest → Key → Bool) (hm : ∀ e watch, matches_ e watch = wanted watch e.key)
    (requests : List (Request V)) {from_ to_ : Int} (hle : from_ ≤ to_) {st st' : EtcdState V}
    (hst : (newReplay requests).stateForRevision from_ = .ok st)
    (hst' : (newReplay requests).stateForRevision to_ = .ok st')
    (watch : WatchRequest) (hw : watch.revision = from_ + 1) :
    st'.keyValues.filter (wanted watch)
      = (st.keyValues.filter (wanted watch)).updateAll
          ((((newReplay requests).eventsForWatch matches_ watch).filter
            (fun e => decide (e.revision ≤ to_))).map PersistedEvent.change) := by
  rw [(recounted_replayLoop requests).resume hle hst hst' (wanted watch)]
  congr 2
  unfold between EtcdReplay.eventsForWatch
  rw [List.filter_filter, List.filter_filter]
  refine List.filter_congr fun e _ => ?_
  rw [hm, hw, Bool.eq_iff_iff]
  simp only [Bool.and_eq_true, decide_eq_true_eq, Bool.not_eq_true', Bool.or_eq_false_iff,
    decide_eq_false_iff_not, Bool.not_eq_false']
  constructor
  · rintro ⟨hwant, hfrom, hto⟩
    exact ⟨hto, by omega, hwant⟩
  · rintro ⟨hto, hfrom, hwant⟩
    exact ⟨hwant, by omega, hto⟩

/-- 鍵だけを見る照合。 -/
def WatchRequest.wants (watch : WatchRequest) (key : Key) : Bool :=
  if watch.withPrefix then watch.key.isPrefixOf key else decide (key = watch.key)

/-- lease に付けた鍵を書き、隣の鍵を書き、lease を revoke する log。 -/
def leasedLog : List (Request Nat) :=
  [.leaseGrant 5, .txn ⟨[], [.put ⟨[1, 1], 7, 5⟩, .put ⟨[2], 8, 5⟩], []⟩,
    .txn ⟨[⟨[1, 2], 0, 0⟩], [.put ⟨[1, 2], 9, 0⟩], []⟩, .leaseRevoke 5]

/-- revision 2 の状態に、revoke までの event を重ねる。 -/
theorem replay_resumes_of_revoke :
    ∃ st st', (newReplay leasedLog).stateForRevision 2 = .ok st ∧
      (newReplay leasedLog).stateForRevision 4 = .ok st' ∧
      ((newReplay leasedLog).eventsForWatch (fun e watch => watch.wants e.key)
        ⟨[1], 3, true, false⟩).map (fun e => (e.revision, e.key)) = [(3, [1, 2]), (4, [1, 1])] ∧
      st'.keyValues.filter (WatchRequest.wants ⟨[1], 3, true, false⟩)
        = (st.keyValues.filter (WatchRequest.wants ⟨[1], 3, true, false⟩)).updateAll
          ((((newReplay leasedLog).eventsForWatch (fun e watch => watch.wants e.key)
            ⟨[1], 3, true, false⟩).filter (fun e => decide (e.revision ≤ 4))).map
              PersistedEvent.change) := by
  obtain ⟨st, hst⟩ : ∃ st, (newReplay leasedLog).stateForRevision 2 = .ok st := ⟨_, rfl⟩
  obtain ⟨st', hst'⟩ : ∃ st, (newReplay leasedLog).stateForRevision 4 = .ok st := ⟨_, rfl⟩
  exact ⟨st, st', hst, hst', by decide +kernel, replay_resumes _ WatchRequest.wants
    (fun _ _ => rfl) leasedLog (by decide) hst hst' ⟨[1], 3, true, false⟩ rfl⟩

end KubeFdb.Robustness
