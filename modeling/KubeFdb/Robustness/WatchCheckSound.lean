import KubeFdb.Robustness.WatchCheck

/-!
# watch の検査の関係

検査の一つ `validateReliable` は、届いた event を再生の event と列ごと比べる。再生の event の並びから、ほかの検査の
いくつかはこれに含まれる。

* `reliable_subsumes` — `validateReliable` を通る report は、filter、順序、重複、再開、作成の検査も通る
* `checked_watch_rebuilds` — 検査を通った watch の event を重ねると、再生の状態になる
-/

namespace KubeFdb.Robustness

variable {V O : Type} {α : Type}

/-! ## 検査の loop -/

/-- 違反を覚える loop は、どの要素も違反でないときに限って何も返さない。 -/
theorem foldl_eq_none_iff {f : Option Guarantee → α → Option Guarantee} (good : α → Prop)
    (hf : ∀ err a, f err a = none ↔ err = none ∧ good a) {l : List α} {err : Option Guarantee} :
    l.foldl f err = none ↔ err = none ∧ ∀ a ∈ l, good a := by
  induction l generalizing err with
  | nil => simp
  | cons a l ih =>
    rw [List.foldl_cons, ih, hf, and_assoc, List.forall_mem_cons]

theorem foldl_eq_none_of_mem {f : Option Guarantee → α → Option Guarantee} {l : List α}
    (h : ∀ a ∈ l, f none a = none) : l.foldl f none = none :=
  List.foldlRecOn (motive := fun err => err = none) l f rfl fun _ herr a ha => by
    rw [herr]
    exact h a ha

/-- panic するかもしれない loop。 -/
theorem foldlM_eq_ok_none_iff {f : Option Guarantee → α → Except ReplayErr (Option Guarantee)}
    (good : α → Prop) (hf : ∀ err a, f err a = .ok none ↔ err = none ∧ good a) {l : List α}
    {err : Option Guarantee} :
    l.foldlM f err = .ok none ↔ err = none ∧ ∀ a ∈ l, good a := by
  induction l generalizing err with
  | nil => simp [pure, Except.pure]
  | cons a l ih =>
    rw [List.foldlM_cons, List.forall_mem_cons, ← and_assoc, ← hf]
    cases hfa : f err a with
    | error e => simp [bind, Except.bind]
    | ok err' =>
      show l.foldlM f err' = .ok none ↔ _
      rw [ih, Except.ok.injEq]

theorem flag_eq_none_iff {g : Guarantee} {bad : Bool} {err : Option Guarantee} :
    flag g bad err = none ↔ err = none ∧ bad = false := by
  cases bad <;> simp [flag]

section

variable {matches_ : PersistedEvent V → WatchRequest → Bool} {report : ClientReport V O}
  {op : WatchOperation V}

theorem validateFilter_eq_none_iff : validateFilter matches_ report = none ↔
    ∀ op ∈ report.watch, ∀ event ∈ op.events,
      matches_ event.toPersistedEvent op.request = true := by
  refine (foldl_eq_none_iff
    (fun op => ∀ event ∈ op.events, (!matches_ event.toPersistedEvent op.request) = false)
    fun err op => foldl_eq_none_iff
      (fun event : WatchEvent V => (!matches_ event.toPersistedEvent op.request) = false)
      fun err event => flag_eq_none_iff).trans ?_
  simp

theorem foldl_orderedStep (events : List (WatchEvent V)) (last : Int) (err : Option Guarantee) :
    (events.foldl orderedStep (last, err)).2 = none ↔ err = none ∧
      (∀ e ∈ events, last ≤ e.revision) ∧
        events.Pairwise (fun a b => a.revision ≤ b.revision) := by
  induction events generalizing last err with
  | nil => simp
  | cons e events ih =>
    rw [List.foldl_cons, orderedStep, ih, List.pairwise_cons, List.forall_mem_cons]
    simp only [flag_eq_none_iff, decide_eq_false_iff_not, not_lt]
    constructor
    · rintro ⟨⟨herr, hle⟩, hall, hpair⟩
      exact ⟨herr, ⟨hle, fun x hx => hle.trans (hall x hx)⟩, hall, hpair⟩
    · rintro ⟨herr, ⟨hle, -⟩, hall, hpair⟩
      exact ⟨⟨herr, hle⟩, hall, hpair⟩

theorem validateOrdered_eq_none_iff : validateOrdered report = none ↔
    ∀ op ∈ report.watch, (∀ e ∈ op.events, 1 ≤ e.revision) ∧
      op.events.Pairwise (fun a b => a.revision ≤ b.revision) := by
  refine (foldl_eq_none_iff _ fun err op => foldl_orderedStep op.events 1 err).trans ?_
  simp

theorem foldl_uniqueStep (expectUnique : Bool) (events : List (WatchEvent V))
    (seen : List (Int × Option Key)) (err : Option Guarantee) :
    (events.foldl (uniqueStep expectUnique) (seen, err)).2 = none ↔ err = none ∧
      (∀ e ∈ events, uniqueKey expectUnique e ∉ seen) ∧
        (events.map (uniqueKey expectUnique)).Nodup := by
  induction events generalizing seen err with
  | nil => simp
  | cons e events ih =>
    rw [List.foldl_cons, uniqueStep, ih, List.map_cons, List.nodup_cons, List.forall_mem_cons]
    simp only [flag_eq_none_iff, List.mem_cons, not_or, List.mem_map, not_exists, not_and]
    constructor
    · rintro ⟨⟨herr, hnew⟩, hall, hnodup⟩
      exact ⟨herr, ⟨by simpa using hnew, fun x hx => (hall x hx).2⟩,
        fun x hx => (hall x hx).1, hnodup⟩
    · rintro ⟨herr, ⟨hnew, hseen⟩, hne, hnodup⟩
      exact ⟨⟨herr, by simpa using hnew⟩, fun x hx => ⟨hne x hx, hseen x hx⟩, hnodup⟩

theorem validateUnique_eq_none_iff {expectUnique : Bool} :
    validateUnique expectUnique report = none ↔
      ∀ op ∈ report.watch, (op.events.map (uniqueKey expectUnique)).Nodup := by
  refine (foldl_eq_none_iff _ fun err op => foldl_uniqueStep expectUnique op.events [] err).trans ?_
  simp

/-- revision の昇順に届いた event は、応答の切れ目で同じ revision にならない。 -/
theorem foldl_atomicStep (responses : List (WatchResponse V)) (last : Int) (err : Option Guarantee)
    (hlow : ∀ e ∈ responses.flatMap WatchResponse.events, last < e.revision)
    (h : (responses.flatMap WatchResponse.events).Pairwise (fun a b => a.revision < b.revision)) :
    (responses.foldl atomicStep (last, err)).2 = err := by
  induction responses generalizing last with
  | nil => rfl
  | cons resp responses ih =>
    rw [List.flatMap_cons] at hlow h
    obtain ⟨-, hrest, hcross⟩ := List.pairwise_append.mp h
    rw [List.foldl_cons, atomicStep]
    cases hhead : resp.events.head? with
    | none =>
      exact ih last (fun e he => hlow e (List.mem_append_right _ he)) hrest
    | some first =>
      have hfirst := hlow first (List.mem_append_left _ (List.mem_of_head? hhead))
      cases hgetLast : resp.events.getLast? with
      | none =>
        rw [List.getLast?_eq_none_iff.mp hgetLast] at hhead
        cases hhead
      | some lastEvent =>
        simp only [decide_eq_false hfirst.ne', flag, if_neg Bool.false_ne_true]
        exact ih _ (fun e he => hcross _ (List.mem_of_getLast? hgetLast) e he) hrest

theorem validateAtomic_of_increasing (h : ∀ op ∈ report.watch, (∀ e ∈ op.events, 1 < e.revision) ∧
    op.events.Pairwise (fun a b => a.revision < b.revision)) : validateAtomic report = none :=
  foldl_eq_none_of_mem fun op hop => foldl_atomicStep op.responses 1 none (h op hop).1 (h op hop).2

/-- 進捗の通知がなければ、event が正の revision を持つだけでよい。 -/
theorem foldl_bookmarkStep (responses : List (WatchResponse V)) (acc : BookmarkState)
    (hq : ∀ resp ∈ responses, resp.isProgressNotify = false)
    (hlow : ∀ e ∈ responses.flatMap WatchResponse.events,
      acc.lastProgressNotifyRevision < e.revision) :
    (responses.foldl bookmarkStep acc).err = acc.err := by
  have hevents : ∀ (events : List (WatchEvent V)) (acc : BookmarkState),
      (∀ e ∈ events, acc.lastProgressNotifyRevision < e.revision) →
      (events.foldl bookmarkEvent acc).err = acc.err ∧
        (events.foldl bookmarkEvent acc).lastProgressNotifyRevision
          = acc.lastProgressNotifyRevision := by
    intro events
    induction events with
    | nil => exact fun acc _ => ⟨rfl, rfl⟩
    | cons e events ih =>
      intro acc hlow
      obtain ⟨he, hlow⟩ := List.forall_mem_cons.mp hlow
      have hflag : (bookmarkEvent acc e).err = acc.err := by simp [bookmarkEvent, flag, he]
      obtain ⟨herr, hlast⟩ := ih (bookmarkEvent acc e) hlow
      exact ⟨herr.trans hflag, hlast⟩
  induction responses generalizing acc with
  | nil => rfl
  | cons resp responses ih =>
    rw [List.flatMap_cons] at hlow
    obtain ⟨herr, hlast⟩ := hevents resp.events acc fun e he => hlow e (List.mem_append_left _ he)
    have hstep : bookmarkStep acc resp = resp.events.foldl bookmarkEvent acc := by
      simp [bookmarkStep, hq resp List.mem_cons_self]
    rw [List.foldl_cons, hstep, ih _ (fun x hx => hq x (List.mem_cons_of_mem _ hx)) fun e he => ?_,
      herr]
    rw [hlast]
    exact hlow e (List.mem_append_right _ he)

theorem validateBookmarkable_of_quiet (h : ∀ op ∈ report.watch,
    (∀ resp ∈ op.responses, resp.isProgressNotify = false) ∧ ∀ e ∈ op.events, 0 < e.revision) :
    validateBookmarkable report = none :=
  foldl_eq_none_of_mem fun op hop =>
    foldl_bookmarkStep op.responses ⟨0, 0, none⟩ (h op hop).1 (h op hop).2

/-! ## 届くはずの event -/

theorem mem_wantEvents {request : WatchRequest} {firstRev lastRev : Int} :
    ∀ {events : List (PersistedEvent V)} {e : PersistedEvent V},
    e ∈ wantEvents matches_ request firstRev lastRev events →
      e ∈ events ∧ matches_ e request = true
  | [], _, he => absurd he List.not_mem_nil
  | x :: events, e, he => by
    unfold wantEvents at he
    split at he
    · obtain ⟨hm, hmatch⟩ := mem_wantEvents he
      exact ⟨List.mem_cons_of_mem _ hm, hmatch⟩
    · split at he
      · exact absurd he List.not_mem_nil
      · split at he
        · next hmatch =>
          rcases List.mem_cons.mp he with rfl | he
          · exact ⟨List.mem_cons_self, hmatch⟩
          · obtain ⟨hm, hmatch⟩ := mem_wantEvents he
            exact ⟨List.mem_cons_of_mem _ hm, hmatch⟩
        · obtain ⟨hm, hmatch⟩ := mem_wantEvents he
          exact ⟨List.mem_cons_of_mem _ hm, hmatch⟩

theorem wantEvents_sublist {request : WatchRequest} {firstRev lastRev : Int} :
    ∀ (events : List (PersistedEvent V)),
    (wantEvents matches_ request firstRev lastRev events).Sublist events
  | [] => List.Sublist.refl _
  | x :: events => by
    unfold wantEvents
    split
    · exact (wantEvents_sublist events).cons x
    · split
      · exact List.nil_sublist _
      · split
        · exact (wantEvents_sublist events).cons_cons x
        · exact (wantEvents_sublist events).cons x

/-- revision の順に並んだ列では、届くはずの event は、区間の中の合う event である。 -/
theorem wantEvents_eq {request : WatchRequest} {firstRev lastRev : Int}
    {events : List (PersistedEvent V)}
    (h : events.Pairwise (fun a b => a.revision ≤ b.revision)) :
    wantEvents matches_ request firstRev lastRev events = events.filter (fun e =>
      decide (firstRev ≤ e.revision) && decide (e.revision ≤ lastRev) && matches_ e request) := by
  induction h with
  | nil => rfl
  | @cons x events hx _ ih =>
    unfold wantEvents
    split
    · next hlt =>
      rw [ih, List.filter_cons_of_neg (by simp [not_le.mpr hlt])]
    · next hge =>
      split
      · next hgt =>
        refine (List.filter_eq_nil_iff.mpr fun e he hin => ?_).symm
        have hxe : x.revision ≤ e.revision := by
          rcases List.mem_cons.mp he with rfl | he
          · exact le_rfl
          · exact hx e he
        simp only [Bool.and_eq_true, decide_eq_true_eq] at hin
        omega
      · next hle =>
        split
        · next hmatch =>
          rw [ih, List.filter_cons_of_pos (by simp [hmatch, not_lt.mp hge, not_lt.mp hle])]
        · next hmatch =>
          rw [ih, List.filter_cons_of_neg (by simp [hmatch])]

/-- watch に届くはずの event。 -/
def expectedEvents (matches_ : PersistedEvent V → WatchRequest → Bool) (replay : EtcdReplay V)
    (op : WatchOperation V) : List (PersistedEvent V) :=
  if firstExpectedRevision op ≠ 0 then
    wantEvents matches_ op.request (firstExpectedRevision op) (lastRevision op)
      (replay.eventsForWatch matches_ op.request)
  else []

theorem validateReliable_eq_none_iff [DecidableEq V] {replay : EtcdReplay V} :
    validateReliable matches_ replay report = none ↔
      ∀ op ∈ report.watch,
        op.events.map WatchEvent.toPersistedEvent = expectedEvents matches_ replay op := by
  refine (foldl_eq_none_iff (fun op => decide (expectedEvents matches_ replay op ≠
    op.events.map WatchEvent.toPersistedEvent) = false) fun err op => flag_eq_none_iff).trans ?_
  simp only [true_and, decide_eq_false_iff_not, not_not]
  exact forall₂_congr fun op _ => eq_comm

theorem expectedEvents_sublist (replay : EtcdReplay V) (op : WatchOperation V) :
    (expectedEvents matches_ replay op).Sublist replay.events := by
  unfold expectedEvents
  split
  · exact (wantEvents_sublist _).trans List.filter_sublist
  · exact List.nil_sublist _

/-! ## 再開 -/

/-- 再開した watch に届く最初の event は、再生の最初の event である。 -/
theorem expectedEvents_head {replay : EtcdReplay V} (h0 : op.request.revision ≠ 0)
    {e : PersistedEvent V} (he : e ∈ (expectedEvents matches_ replay op).head?) :
    e ∈ ((replay.eventsForWatch matches_ op.request).dropWhile (fun e =>
      decide (e.revision < op.request.revision) || !matches_ e op.request)).head? := by
  have hfirst : firstExpectedRevision op = op.request.revision := if_pos h0
  have hall : ∀ x ∈ replay.eventsForWatch matches_ op.request,
      ¬ x.revision < op.request.revision ∧ matches_ x op.request = true := by
    intro x hx
    simpa [EtcdReplay.eventsForWatch] using (List.mem_filter.mp hx).2
  unfold expectedEvents at he
  rw [if_pos (by rw [hfirst]; exact h0), hfirst] at he
  cases hl : replay.eventsForWatch matches_ op.request with
  | nil =>
    rw [hl] at he
    cases he
  | cons x events =>
    obtain ⟨hge, hmatch⟩ := hall x (hl ▸ List.mem_cons_self)
    rw [List.dropWhile_cons_of_neg (by simp [hmatch, not_lt.mp hge])]
    rw [hl, wantEvents, if_neg hge] at he
    split at he
    · cases he
    · exact he

theorem validateResumable_of_reliable [DecidableEq V] {replay : EtcdReplay V}
    (h : ∀ op ∈ report.watch,
      op.events.map WatchEvent.toPersistedEvent = expectedEvents matches_ replay op) :
    validateResumable matches_ replay report = none := by
  refine (foldl_eq_none_iff (fun op => op.request.revision = 0 ∨
    ∀ event ∈ ((replay.eventsForWatch matches_ op.request).dropWhile (fun e =>
      decide (e.revision < op.request.revision) || !matches_ e op.request)).head?,
      ∀ firstEvent ∈ op.events.head?, event = firstEvent.toPersistedEvent) fun err op => ?_).mpr
      ⟨rfl, fun op hop => ?_⟩
  · by_cases h0 : op.request.revision = 0
    · simp [h0]
    · rw [if_neg h0]
      cases hevent : ((replay.eventsForWatch matches_ op.request).dropWhile (fun e =>
          decide (e.revision < op.request.revision) || !matches_ e op.request)).head? with
      | none => simp
      | some event =>
        cases hfirst : op.events.head? with
        | none => simp
        | some firstEvent => simp [h0, flag_eq_none_iff]
  · refine or_iff_not_imp_left.mpr fun h0 event hevent firstEvent hfirst => ?_
    have hhead : firstEvent.toPersistedEvent ∈ (expectedEvents matches_ replay op).head? := by
      rw [← h op hop, List.head?_map, Option.mem_def.mp hfirst]
      rfl
    exact Option.some.inj ((Option.mem_def.mp hevent).symm.trans (expectedEvents_head h0 hhead))

theorem validateFilter_of_reliable {replay : EtcdReplay V}
    (h : ∀ op ∈ report.watch,
      op.events.map WatchEvent.toPersistedEvent = expectedEvents matches_ replay op) :
    validateFilter matches_ report = none := by
  refine validateFilter_eq_none_iff.mpr fun op hop event hevent => ?_
  have hmem := List.mem_map_of_mem (f := WatchEvent.toPersistedEvent) hevent
  rw [h op hop, expectedEvents] at hmem
  split at hmem
  · exact (mem_wantEvents hmem).2
  · cases hmem

/-! ## 作成 -/

theorem isCreateStep_eq_ok_none_iff {replay : EtcdReplay V} (err : Option Guarantee)
    (event : WatchEvent V) :
    isCreateStep replay err event = .ok none ↔
      err = none ∧ replay.Attests event.toPersistedEvent := by
  unfold isCreateStep EtcdReplay.Attests
  cases hst : replay.stateForRevision (event.revision - 1) with
  | error e => simp [Except.map]
  | ok st =>
    simp only [Except.map, Except.ok.injEq, flag_eq_none_iff, exists_eq_left']
    refine and_congr_right fun _ => ?_
    cases event.isCreate <;> cases (st.keyValues.get? event.key).isSome <;> simp

theorem validateIsCreate_eq_ok_none_iff {replay : EtcdReplay V} :
    validateIsCreate replay report = .ok none ↔
      ∀ op ∈ report.watch, ∀ event ∈ op.events, replay.Attests event.toPersistedEvent := by
  refine (foldlM_eq_ok_none_iff
    (fun op => ∀ event ∈ op.events, replay.Attests event.toPersistedEvent) fun err op =>
      foldlM_eq_ok_none_iff (fun event : WatchEvent V => replay.Attests event.toPersistedEvent)
        isCreateStep_eq_ok_none_iff).trans ?_
  simp

/-! ## `PrevKV` -/

/-- event の `PrevKV` が、直前の revision の状態の値であること。`PrevKV` のない event は、状態が再生にあればよい。 -/
def EtcdReplay.AttestsPrev (zeroValue : V) (replay : EtcdReplay V) (event : WatchEvent V) : Prop :=
  ∃ st, replay.stateForRevision (event.revision - 1) = .ok st ∧ ∀ prevValue ∈ event.prevValue,
    prevValue = { (st.keyValues.get? event.key).getD ⟨zeroValue, 0, 0⟩ with version := 0 }

theorem prevKVStep_eq_ok_none_iff [DecidableEq V] {zeroValue : V} {replay : EtcdReplay V}
    (err : Option Guarantee) (event : WatchEvent V) :
    prevKVStep zeroValue replay err event = .ok none ↔
      err = none ∧ replay.AttestsPrev zeroValue event := by
  unfold prevKVStep EtcdReplay.AttestsPrev
  cases hst : replay.stateForRevision (event.revision - 1) with
  | error e => simp [Except.map]
  | ok st =>
    simp only [Except.map, Except.ok.injEq, exists_eq_left']
    cases event.prevValue with
    | none => simp
    | some prevValue => simp [flag_eq_none_iff]

theorem validatePrevKV_eq_ok_none_iff [DecidableEq V] {zeroValue : V} {replay : EtcdReplay V} :
    validatePrevKV zeroValue replay report = .ok none ↔
      ∀ op ∈ report.watch, op.request.withPrevKV = true → ∀ event ∈ op.events,
        replay.AttestsPrev zeroValue event := by
  refine (foldlM_eq_ok_none_iff (fun op => op.request.withPrevKV = true → ∀ event ∈ op.events,
    replay.AttestsPrev zeroValue event) fun err op => ?_).trans ?_
  · cases hp : op.request.withPrevKV with
    | false => simp
    | true =>
      simpa using foldlM_eq_ok_none_iff
        (fun event : WatchEvent V => replay.AttestsPrev zeroValue event) prevKVStep_eq_ok_none_iff
  · simp

/-- 直前の revision の状態がどれも再生にあれば、`PrevKV` の検査は panic しない。 -/
theorem validatePrevKV_eq_ok [DecidableEq V] (zeroValue : V) {replay : EtcdReplay V}
    (h : ∀ op ∈ report.watch, ∀ event ∈ op.events,
      ∃ st, replay.stateForRevision (event.revision - 1) = .ok st) :
    validatePrevKV zeroValue replay report = .ok none ∨
      validatePrevKV zeroValue replay report = .ok (some .prevKV) := by
  have hstep : ∀ err : Option Guarantee, err = none ∨ err = some .prevKV → ∀ op ∈ report.watch,
      ∀ event ∈ op.events, ∃ err', prevKVStep zeroValue replay err event = .ok err' ∧
        (err' = none ∨ err' = some .prevKV) := by
    intro err herr op hop event hevent
    obtain ⟨st, hst⟩ := h op hop event hevent
    unfold prevKVStep flag
    rw [hst]
    refine ⟨_, rfl, ?_⟩
    cases event.prevValue with
    | none => exact herr
    | some prevValue =>
      dsimp only
      split
      · exact Or.inr rfl
      · exact herr
  obtain ⟨err, hprev, rfl | rfl⟩ : ∃ err, validatePrevKV zeroValue replay report = .ok err ∧
      (err = none ∨ err = some .prevKV) := by
    refine foldlM_ok_of_forall _ (fun err herr op hop => ?_) (Or.inl rfl)
    split
    · exact foldlM_ok_of_forall _ (fun err herr => hstep err herr op hop) herr
    · exact ⟨err, rfl, herr⟩
  · exact Or.inl hprev
  · exact Or.inr hprev

/-! ## 検査の全体 -/

theorem raise_eq_ok_iff {err : Option Guarantee} : raise err = .ok () ↔ err = none := by
  cases err <;> simp [raise]

theorem raiseOrPanic_eq_ok_iff {result : Except ReplayErr (Option Guarantee)} :
    raiseOrPanic result = .ok () ↔ result = .ok none := by
  cases result with
  | error e => simp [raiseOrPanic]
  | ok err => simp [raiseOrPanic, raise_eq_ok_iff]

/-- 順に行う検査は、どれも通るときに限って通る。 -/
theorem bind_eq_ok_unit_iff {x : Except WatchFailure Unit} {f : Unit → Except WatchFailure Unit} :
    (x >>= f) = .ok () ↔ x = .ok () ∧ f () = .ok () := by
  cases x with
  | error e => simp [bind, Except.bind]
  | ok u => simp [bind, Except.bind]

theorem validateWatchError_eq_ok_iff [DecidableEq V] {zeroValue : V} {expectUnique : Bool}
    {replay : EtcdReplay V} {reports : List (ClientReport V O)} :
    validateWatchError matches_ zeroValue expectUnique reports replay = .ok () ↔
      ∀ report ∈ reports, validateReport matches_ zeroValue expectUnique replay report = .ok () := by
  unfold validateWatchError
  induction reports with
  | nil => simp [pure, Except.pure]
  | cons report reports ih =>
    rw [List.forM, bind_eq_ok_unit_iff, ih, List.forall_mem_cons]

/-- どの report も、通るか同じ `err` で止まるなら、全体もそうである。 -/
theorem validateWatchError_ok_or [DecidableEq V] {zeroValue : V} {expectUnique : Bool}
    {replay : EtcdReplay V} {reports : List (ClientReport V O)} {err : WatchFailure}
    (h : ∀ report ∈ reports,
      validateReport matches_ zeroValue expectUnique replay report = .ok () ∨
        validateReport matches_ zeroValue expectUnique replay report = .error err) :
    validateWatchError matches_ zeroValue expectUnique reports replay = .ok () ∨
      validateWatchError matches_ zeroValue expectUnique reports replay = .error err := by
  unfold validateWatchError
  induction reports with
  | nil => exact Or.inl rfl
  | cons report reports ih =>
    obtain ⟨hreport, hreports⟩ := List.forall_mem_cons.mp h
    rw [List.forM]
    rcases hreport with hreport | hreport
    · rw [hreport]
      exact ih hreports
    · rw [hreport]
      exact Or.inr rfl

/-! ## 含まれる検査 -/

/-- 届いた event が再生の event の部分列である watch は、event ごとの検査を通る。 -/
theorem checks_of_sublist {replay : EtcdReplay V} (ha : Attested replay)
    (hsorted : replay.events.Pairwise (fun a b => a.revision ≤ b.revision))
    (hlow : ∀ e ∈ replay.events, 1 ≤ e.revision)
    (hsub : ∀ op ∈ report.watch,
      (op.events.map WatchEvent.toPersistedEvent).Sublist replay.events) :
    validateOrdered report = none ∧ validateUnique false report = none ∧
      validateIsCreate replay report = .ok none := by
  refine ⟨validateOrdered_eq_none_iff.mpr fun op hop => ⟨fun e he => ?_, ?_⟩,
    validateUnique_eq_none_iff.mpr fun op hop => ?_,
    validateIsCreate_eq_ok_none_iff.mpr fun op hop e he => ?_⟩
  · exact hlow _ ((hsub op hop).subset (List.mem_map_of_mem he))
  · have hpair := hsorted.sublist (hsub op hop)
    rwa [List.pairwise_map] at hpair
  · have hpair := ha.distinct.sublist (hsub op hop)
    refine List.pairwise_map.mpr ((List.pairwise_map.mp hpair).imp fun {a b} hne heq => hne ?_)
    have hrev : a.revision = b.revision := congrArg Prod.fst heq
    have hkey : a.key = b.key := Option.some.inj (congrArg Prod.snd heq)
    rw [hrev, hkey]
  · exact ha.created _ ((hsub op hop).subset (List.mem_map_of_mem he))

/-- **`validateReliable` は、ほかの五つの検査を含む。** 同じ鍵を二度書く transaction のない log では、届いた event が
再生の event と列ごと一致する report は、filter、順序、鍵ごとの重複、再開、作成のどの検査も、panic せずに通る。 -/
theorem reliable_subsumes [DecidableEq V] (matches_ : PersistedEvent V → WatchRequest → Bool)
    (requests : List (Request V)) (hd : ∀ request ∈ requests, request.DistinctWrites)
    (report : ClientReport V O)
    (h : validateReliable matches_ (newReplay requests) report = none) :
    validateFilter matches_ report = none ∧ validateOrdered report = none ∧
      validateUnique false report = none ∧
      validateResumable matches_ (newReplay requests) report = none ∧
      validateIsCreate (newReplay requests) report = .ok none := by
  have hgot := validateReliable_eq_none_iff.mp h
  have hr := recounted_replayLoop requests
  have hsub : ∀ op ∈ report.watch,
      (op.events.map WatchEvent.toPersistedEvent).Sublist (newReplay requests).events := by
    intro op hop
    rw [hgot op hop]
    exact expectedEvents_sublist _ op
  obtain ⟨hordered, hunique, hcreate⟩ := checks_of_sublist (attested_newReplay hd) hr.sorted
    (fun e he => by have := (hr.range e he).1; omega) hsub
  exact ⟨validateFilter_of_reliable hgot, hordered, hunique, validateResumable_of_reliable hgot, hcreate⟩

end

/-- revision 3 から、lease の revoke までを見た watch。 -/
def leasedWatch : WatchOperation Nat :=
  ⟨⟨[1], 3, true, false⟩,
    [⟨[⟨⟨.put, [1, 2], some 9, 3, true⟩, none⟩], false, 3⟩,
      ⟨[⟨⟨.delete, [1, 1], none, 4, false⟩, none⟩], false, 4⟩]⟩

/-- その watch だけの report。 -/
def leasedReport : ClientReport Nat Unit := ⟨1, [], [leasedWatch]⟩

/-- lease の revoke までを見た watch の検査。 -/
theorem reliable_subsumes_of_revoke :
    validateFilter (fun e watch => watch.wants e.key) leasedReport = none ∧
      validateOrdered leasedReport = none ∧ validateUnique false leasedReport = none ∧
      validateResumable (fun e watch => watch.wants e.key) (newReplay leasedLog) leasedReport = none ∧
      validateIsCreate (newReplay leasedLog) leasedReport = .ok none := by
  have hd : ∀ request ∈ leasedLog, request.DistinctWrites := by
    simp [leasedLog, Request.DistinctWrites, Operation.writeKey]
  exact reliable_subsumes _ leasedLog hd leasedReport (by decide +kernel)

/-- 同じ鍵を書いて消す transaction の event は、届いたとおりでも、作成の検査を通らない。 -/
example : validateReliable (fun e watch => watch.wants e.key)
      (newReplay [.txn ⟨[], [.put ⟨[1], 7, 0⟩, .delete [1]], []⟩])
      (⟨1, [], [⟨⟨[1], 2, true, false⟩, [⟨[⟨⟨.put, [1], some 7, 2, true⟩, none⟩,
        ⟨⟨.delete, [1], none, 2, false⟩, none⟩], false, 2⟩]⟩]⟩ : ClientReport Nat Unit) = none ∧
    validateIsCreate (newReplay [.txn ⟨[], [.put ⟨[1], 7, 0⟩, .delete [1]], []⟩])
      (⟨1, [], [⟨⟨[1], 2, true, false⟩, [⟨[⟨⟨.put, [1], some 7, 2, true⟩, none⟩,
        ⟨⟨.delete, [1], none, 2, false⟩, none⟩], false, 2⟩]⟩]⟩ : ClientReport Nat Unit)
      = .ok (some .isCreate) := by decide +kernel

/-- **検査を通った watch から、状態を組み立てられる。** 一覧の revision の次から始めた watch が `validateReliable` を
通るなら、一覧に watch の event を重ねたものは、watch の最後の revision の状態を watch の鍵で絞ったものである。 -/
theorem checked_watch_rebuilds [DecidableEq V] (matches_ : PersistedEvent V → WatchRequest → Bool)
    (wanted : WatchRequest → Key → Bool) (hm : ∀ e watch, matches_ e watch = wanted watch e.key)
    (requests : List (Request V)) (report : ClientReport V O)
    (h : validateReliable matches_ (newReplay requests) report = none) (op : WatchOperation V)
    (hop : op ∈ report.watch) {listed : Int} (hlisted : op.request.revision = listed + 1)
    (hle : listed ≤ lastRevision op) {st st' : EtcdState V}
    (hst : (newReplay requests).stateForRevision listed = .ok st)
    (hst' : (newReplay requests).stateForRevision (lastRevision op) = .ok st') :
    st'.keyValues.filter (wanted op.request)
      = (st.keyValues.filter (wanted op.request)).updateAll
          ((op.events.map WatchEvent.toPersistedEvent).map PersistedEvent.change) := by
  have hr := recounted_replayLoop requests
  have h0 := (stateForRevision_ok hst).1
  have hne : op.request.revision ≠ 0 := by omega
  have hfirst : firstExpectedRevision op = op.request.revision := if_pos hne
  have hsorted : ((newReplay requests).eventsForWatch matches_ op.request).Pairwise
      (fun a b => a.revision ≤ b.revision) := hr.sorted.filter _
  have hgot : op.events.map WatchEvent.toPersistedEvent
      = (between PersistedEvent.revision (newReplay requests).events listed
          (lastRevision op)).filter (fun e => wanted op.request e.key) := by
    rw [validateReliable_eq_none_iff.mp h op hop, expectedEvents,
      if_pos (by rw [hfirst]; exact hne), hfirst, wantEvents_eq hsorted]
    unfold between EtcdReplay.eventsForWatch
    rw [List.filter_filter, List.filter_filter]
    refine List.filter_congr fun e _ => ?_
    rw [hm, hlisted, Bool.eq_iff_iff]
    simp only [Bool.and_eq_true, decide_eq_true_eq, Bool.not_eq_true', Bool.or_eq_false_iff,
      decide_eq_false_iff_not, Bool.not_eq_false']
    constructor
    · rintro ⟨⟨⟨hfrom, hto⟩, hwant⟩, -⟩
      exact ⟨hwant, by omega, hto⟩
    · rintro ⟨hwant, hfrom, hto⟩
      exact ⟨⟨⟨by omega, hto⟩, hwant⟩, by omega, hwant⟩
  rw [hr.resume hle hst hst' (wanted op.request), hgot]
  rfl

/-- 検査を通った watch から組み立てた状態。 -/
theorem checked_watch_rebuilds_of_revoke :
    ∃ st st', (newReplay leasedLog).stateForRevision 2 = .ok st ∧
      (newReplay leasedLog).stateForRevision 4 = .ok st' ∧
      st'.keyValues.filter (WatchRequest.wants leasedWatch.request)
        = (st.keyValues.filter (WatchRequest.wants leasedWatch.request)).updateAll
          ((leasedWatch.events.map WatchEvent.toPersistedEvent).map PersistedEvent.change) := by
  obtain ⟨st, hst⟩ : ∃ st, (newReplay leasedLog).stateForRevision 2 = .ok st := ⟨_, rfl⟩
  obtain ⟨st', hst'⟩ : ∃ st, (newReplay leasedLog).stateForRevision 4 = .ok st := ⟨_, rfl⟩
  exact ⟨st, st', hst, hst', checked_watch_rebuilds (fun e watch => watch.wants e.key)
    WatchRequest.wants (fun _ _ => rfl) leasedLog leasedReport (by decide +kernel) leasedWatch
    List.mem_cons_self rfl (by decide) hst hst'⟩

end KubeFdb.Robustness
