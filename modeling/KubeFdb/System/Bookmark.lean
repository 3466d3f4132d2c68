import KubeFdb.System.WatchStream

/-!
# progress の revision

`CurrentRevision` は、poll の loop が走っていれば cursor `lastWatchRev` を返す。kine はこの revision を
progress として client に送るので、その revision までの event は、開いているどの watch にも届いているはずで
ある。loop は batch を broadcaster に渡したところで cursor を進めるが、batch はまだ broadcaster、`innerWatch`、
forwarder のどこかの段にあるかもしれないし、broadcaster に捨てられたかもしれない。

届いているかどうかは、段にある event、捨てられた event、購読と最初の読み出しの始まりだけで決まる
（`WatchSys.Settled`、`progress_bookmarkable_iff`）。
-/

namespace KubeFdb

open Tuple

namespace WatchRun

/-- `Watch` が返って、forwarder が走っていること。 -/
def isOpen (w : WatchRun) : Bool :=
  match w.pc with
  | .opened _ _ => true
  | .forwarding _ => true
  | _ => false

/-- まだ送っていない最初の event。 -/
def unsent (w : WatchRun) : List Event :=
  match w.pc with
  | .opened events _ => events
  | _ => []

/-- 開いている watch の forwarder の `lastRevision`。 -/
def lastRevision (w : WatchRun) : Int :=
  match w.pc with
  | .opened _ lastRevision => lastRevision
  | .forwarding lastRevision => lastRevision
  | _ => 0

/-- watch が届けるはずの、revision が `upTo` までの event。 -/
def Owes (w : WatchRun) (upTo : Int) (e : Event) : Prop :=
  w.accepts e.kv.key = true ∧ w.minRevision ≤ e.kv.modRevision ∧ e.kv.modRevision ≤ upTo

instance (w : WatchRun) (upTo : Int) (e : Event) : Decidable (w.Owes upTo e) :=
  inferInstanceAs (Decidable (_ ∧ _ ∧ _))

end WatchRun

namespace WatchSys

/-- broadcaster に渡され、forwarder がまだ受け取っていない event。`readChan`、`values`、broadcaster の手元の順に
並べる。 -/
def waiting (s : WatchSys) (w : WatchRun) : List Event :=
  w.readChan.flatten ++ w.values.flatten ++ (s.shim.poll.sent.drop s.fanned).flatten

/-- `CurrentRevision` が cursor の revision を返すとき、その revision までの event が、開いているどの watch にも
届いていること。 -/
def Bookmarkable (cfg : Config) (s : WatchSys) : Prop :=
  s.shim.poll.lastWatchRev ≠ 0 → ∀ w ∈ s.watches, w.isOpen = true → ∀ r ∈ s.shim.store.committed,
    w.Owes (currentRevision cfg s.shim.poll.lastWatchRev s.shim.store.db)
      (eventIn cfg s.shim.store.committed r) →
    eventIn cfg s.shim.store.committed r ∈ w.result.flatten

instance (cfg : Config) (s : WatchSys) : Decidable (s.Bookmarkable cfg) :=
  inferInstanceAs (Decidable (_ → ∀ w ∈ s.watches, _ → ∀ r ∈ s.shim.store.committed, _ → _))

/-- cursor までの event が、watch に届く途中にも、届かなくなったものの中にもないこと。 -/
structure Settled (cfg : Config) (s : WatchSys) (w : WatchRun) : Prop where
  /-- forwarder の手元の最初の event。 -/
  initial : ∀ e ∈ w.unsent, ¬ w.Owes s.shim.poll.lastWatchRev e
  /-- 途中の段の event。最初の読み出しで送ったものは、forwarder が飛ばす。 -/
  stages : ∀ e ∈ s.waiting w, w.lastRevision < e.kv.modRevision →
    ¬ w.Owes s.shim.poll.lastWatchRev e
  /-- broadcaster が捨てた event。 -/
  dropped : ∀ e ∈ w.missed, w.lastRevision < e.kv.modRevision →
    ¬ w.Owes s.shim.poll.lastWatchRev e
  /-- 購読に失敗した watch には、最初の読み出しの後の event が届かない。 -/
  unsubscribed : w.joined = none → ∀ r ∈ s.shim.store.committed, w.lastRevision < r.revision →
    ¬ w.Owes s.shim.poll.lastWatchRev (eventIn cfg s.shim.store.committed r)
  /-- 負の `minRevision` の watch には、購読より前の event が届かない。 -/
  negative : w.minRevision < 0 → ∀ j ∈ w.joined, ∀ r ∈ s.shim.store.committed,
    r.revision ≤ j.upTo → ¬ w.Owes s.shim.poll.lastWatchRev (eventIn cfg s.shim.store.committed r)

instance (cfg : Config) (s : WatchSys) (w : WatchRun) : Decidable (s.Settled cfg w) :=
  decidable_of_iff
    ((∀ e ∈ w.unsent, ¬ w.Owes s.shim.poll.lastWatchRev e) ∧
      (∀ e ∈ s.waiting w, w.lastRevision < e.kv.modRevision →
        ¬ w.Owes s.shim.poll.lastWatchRev e) ∧
      (∀ e ∈ w.missed, w.lastRevision < e.kv.modRevision →
        ¬ w.Owes s.shim.poll.lastWatchRev e) ∧
      (w.joined = none → ∀ r ∈ s.shim.store.committed, w.lastRevision < r.revision →
        ¬ w.Owes s.shim.poll.lastWatchRev (eventIn cfg s.shim.store.committed r)) ∧
      (w.minRevision < 0 → ∀ j ∈ w.joined, ∀ r ∈ s.shim.store.committed, r.revision ≤ j.upTo →
        ¬ w.Owes s.shim.poll.lastWatchRev (eventIn cfg s.shim.store.committed r)))
    ⟨fun ⟨h₁, h₂, h₃, h₄, h₅⟩ => ⟨h₁, h₂, h₃, h₄, h₅⟩,
      fun h => ⟨h.initial, h.stages, h.dropped, h.unsubscribed, h.negative⟩⟩

end WatchSys

variable {cfg : Config} {w w' : WatchRun} {fanned : Nat} {hist : List RevRecord}

/-! ## loop の cursor -/

/-- やり直した loop は、前の cursor から始まること。 -/
def Poll.Resumes (p : Poll) : Prop :=
  ∀ pollStart, p.pc = .starting pollStart → p.lastWatchRev ≠ 0 → pollStart = p.lastWatchRev

theorem Poll.Effect.resumes {db : Db} {p p' : Poll} {a : PollLabel} (h : p.Resumes)
    (he : Poll.Effect cfg db p a p') : p'.Resumes := by
  cases he with
  | connect hpc =>
    intro pollStart hp hne
    rw [← PollPc.starting.inj hp]
    exact if_pos hne
  | stay _ ha hpc => exact h
  | _ => intro pollStart hp; cases hp

/-- cursor までの event は渡し終えている。 -/
theorem Shim.Exact.lastWatchRev_le {s : Shim} (h : s.Exact cfg) (hr : s.poll.Resumes) {start : Int}
    (ho : s.origin = some start) (hne : s.poll.lastWatchRev ≠ 0) :
    s.poll.lastWatchRev ≤ s.poll.handedTo := by
  have hp := h.inv.polled start ho
  unfold Poll.handedTo
  split
  · next events hpc =>
    have hcur := hp.cursor_le
    simp only [Poll.cursor, Poll.position, hpc] at hcur
    exact hcur
  · unfold Poll.cursor
    split
    · next pollStart hpc => exact (hr pollStart hpc hne).ge
    · exact le_rfl

theorem WatchSys.resumes_step {s s' : WatchSys} {a : WatchLabel} (h : s.shim.poll.Resumes)
    (hs : s.step cfg a = some s') : s'.shim.poll.Resumes := by
  cases WatchSys.step_effect hs with
  | shim a t ht =>
    cases a with
    | store a =>
      obtain ⟨st, -, rfl⟩ := Option.map_eq_some_iff.mp ht
      exact h
    | poll a =>
      obtain ⟨p', hp', rfl⟩ := Option.map_eq_some_iff.mp ht
      exact (Poll.step_effect hp').resumes h
  | opened prefix_ minRevision subscribed hrunning hrange => exact h
  | fannedOut full events hev => exact h
  | watched i a w w' hi he => exact h

theorem WatchSys.resumes_run {as : List WatchLabel} {s : WatchSys}
    (hrun : runSteps (WatchSys.step cfg) .init as = some s) : s.shim.poll.Resumes :=
  run_invariant (P := fun s => s.shim.poll.Resumes)
    (fun _ _ _ h hs => WatchSys.resumes_step h hs)
    (fun _ hp => by simp [WatchSys.init, Shim.init, Poll.init] at hp) hrun

/-! ## 最初の読み出し -/

section

variable {read : List RevRecord} {events : List Event} {lastRevision : Int}

/-- 最初の event は、`lastRevision` より後ろにない。 -/
theorem Started.le_lastRevision (h : Started cfg hist w read events lastRevision)
    (hs : SortedBy RevRecord.revision hist) : ∀ e ∈ events, e.kv.modRevision ≤ lastRevision := by
  intro e he
  rw [h.events_eq] at he
  obtain ⟨r, hr, rfl⟩ := List.mem_map.mp he
  obtain ⟨hread, hacc⟩ := List.mem_filter.mp hr
  rw [eventIn_modRevision]
  rcases h.last_cases hs with ⟨-, hnone⟩ | ⟨z, -, rfl, hmax⟩
  · exact absurd hacc (hnone r hread)
  · exact hmax r hread hacc

theorem WatchRun.since_of_negative (hneg : w.minRevision < 0) : w.since = w.minRevision :=
  if_neg (by omega)

/-- 負の `minRevision` の watch は、最初に何も読まない。 -/
theorem Started.of_negative (h : Started cfg hist w read events lastRevision)
    (hwf : ∀ r ∈ hist, r.Wf) (hlow : -2 ^ 63 ≤ w.minRevision) (hneg : w.minRevision < 0) :
    events = [] ∧ lastRevision < 0 := by
  have hsince := WatchRun.since_of_negative hneg
  have hread : read = [] := List.eq_nil_iff_forall_not_mem.mpr fun r hr => by
    have h0 := nonneg_of_mem_afterTodo hwf (by rw [hsince]; exact hlow) (h.isPrefix.subset hr)
    omega
  have hevents : events = [] := by
    rw [h.events_eq, hread]
    rfl
  refine ⟨hevents, ?_⟩
  rw [h.last_eq, hevents]
  show w.since < 0
  omega

/-- 開いている watch では、最初の読み出しが終わっている。最初の event をまだ送っていなければ何も送っておらず、
送っていれば、その後に送ったのは受け取った event のうち `lastRevision` より後ろのものである。 -/
theorem WatchRun.Phase.of_isOpen (h : w.Phase cfg hist) (hopen : w.isOpen = true) :
    ∃ events read, Started cfg hist w read events w.lastRevision ∧
      ((w.unsent = events ∧ w.result = [] ∧ w.taken = []) ∨
        (w.unsent = [] ∧ w.result.flatten
          = events ++ w.taken.filter (fun e => decide (w.lastRevision < e.kv.modRevision)))) := by
  cases h with
  | reading call read hpc _ _ _ _ => rw [WatchRun.isOpen, hpc] at hopen; cases hopen
  | failed hpc _ _ => rw [WatchRun.isOpen, hpc] at hopen; cases hopen
  | opened events lastRevision read hpc hresult htaken hstart =>
    have hlast : w.lastRevision = lastRevision := by rw [WatchRun.lastRevision, hpc]
    have hunsent : w.unsent = events := by rw [WatchRun.unsent, hpc]
    rw [hlast]
    exact ⟨events, read, hstart, Or.inl ⟨hunsent, hresult, htaken⟩⟩
  | forwarding events lastRevision read hpc hstart hresult =>
    have hlast : w.lastRevision = lastRevision := by rw [WatchRun.lastRevision, hpc]
    have hunsent : w.unsent = [] := by rw [WatchRun.unsent, hpc]
    rw [hlast]
    exact ⟨events, read, hstart, Or.inr ⟨hunsent, hresult⟩⟩

/-- `lastRevision` より後ろの event は、forwarder が受け取っていなければ送られていない。 -/
theorem WatchRun.Phase.not_mem_result (h : w.Phase cfg hist) (hopen : w.isOpen = true)
    (hs : SortedBy RevRecord.revision hist) {e : Event} (hlt : w.lastRevision < e.kv.modRevision)
    (htaken : e ∉ w.taken) : e ∉ w.result.flatten := by
  obtain ⟨events, read, hstart, ⟨-, hresult, -⟩ | ⟨-, hresult⟩⟩ := h.of_isOpen hopen
  · rw [hresult]
    exact List.not_mem_nil
  · rw [hresult, List.mem_append, not_or]
    exact ⟨fun hm => absurd (hstart.le_lastRevision hs e hm) (not_le.mpr hlt),
      fun hm => htaken (List.mem_of_mem_filter hm)⟩

end

/-! ## 段にある event -/

section

variable {s : Shim}

theorem WatchRun.mem_wanted_iff {e : Event} (hacc : w.accepts e.kv.key = true)
    (events : List Event) : e ∈ w.wanted events ↔ e ∈ events := by
  rw [WatchRun.mem_wanted]
  exact and_iff_left hacc

/-- 配られた合う event は、forwarder が受け取ったか、途中の段にあるか、捨てられている。 -/
theorem WatchRun.Inv.mem_pipe (hw : w.Inv cfg s fanned) {e : Event}
    (hacc : w.accepts e.kv.key = true) :
    e ∈ w.fed s.poll.sent fanned ↔
      e ∈ w.taken ∨ (e ∈ w.readChan.flatten ∨ e ∈ w.values.flatten) ∨ e ∈ w.missed := by
  rw [← WatchRun.mem_wanted_iff hacc, ← hw.pipe.mem_iff, WatchRun.passed, List.mem_append,
    List.mem_append, List.mem_append, WatchRun.mem_wanted_iff hacc, WatchRun.mem_wanted_iff hacc]
  tauto

/-- 配られた event は、渡された batch の中にある。 -/
theorem WatchRun.mem_sent_of_fed {sent : List (List Event)} {e : Event}
    (he : e ∈ w.fed sent fanned) : e ∈ sent.flatten := by
  unfold WatchRun.fed at he
  split at he
  · next j hj =>
    exact ((List.drop_sublist j.count _).trans (List.take_sublist fanned _)).flatten.subset he
  · cases he

/-- 配られた合う event はどれも別のもので、手元の batch の event とも別のものである。 -/
theorem WatchRun.Inv.nodup (hw : w.Inv cfg s fanned) (h : s.Exact cfg) :
    (w.passed ++ w.wanted w.missed).Nodup ∧
      ∀ e ∈ w.taken, e ∉ (s.poll.sent.drop fanned).flatten := by
  refine ⟨hw.pipe.nodup_iff.mpr ((hw.fed_sorted h).filter _).nodup, fun e he hhand => ?_⟩
  have hfed : e ∈ w.fed s.poll.sent fanned := List.mem_of_mem_filter
    (hw.order.subset (List.mem_append_left _ (List.mem_append_left _ he)))
  cases hj : w.joined with
  | none =>
    rw [WatchRun.fed, hj] at hfed
    cases hfed
  | some j =>
    have hs : SortedBy (fun e : Event => e.kv.modRevision)
        (w.fed s.poll.sent fanned ++ (s.poll.sent.drop fanned).flatten) := by
      rw [hw.fed_eq h hj]
      exact sorted_map_eventIn.mpr (between_sorted h.inv.store.sorted_revision _ _)
    exact absurd ((SortedBy.append_iff.mp hs).2.2 e hfed e hhand) (lt_irrefl _)

/-- 段にある合う event を、forwarder は受け取っていない。 -/
theorem WatchRun.Inv.not_taken (hw : w.Inv cfg s fanned) (h : s.Exact cfg) {e : Event}
    (hacc : w.accepts e.kv.key = true)
    (he : (e ∈ w.readChan.flatten ∨ e ∈ w.values.flatten ∨ e ∈ (s.poll.sent.drop fanned).flatten) ∨
      e ∈ w.missed) : e ∉ w.taken := by
  intro htaken
  obtain ⟨hnodup, hhand⟩ := hw.nodup h
  rw [WatchRun.passed, List.append_assoc, List.append_assoc] at hnodup
  have hdisj := (List.nodup_append.mp hnodup).2.2 e htaken e
  rcases he with (he | he | he) | he
  · exact hdisj (List.mem_append_left _ he) rfl
  · exact hdisj (List.mem_append_right _ (List.mem_append_left _
      ((WatchRun.mem_wanted_iff hacc _).mpr he))) rfl
  · exact hhand e htaken he
  · exact hdisj (List.mem_append_right _ (List.mem_append_right _
      ((WatchRun.mem_wanted_iff hacc _).mpr he))) rfl

/-- 購読していない watch は、何も受け取らない。 -/
theorem WatchRun.Inv.not_taken_of_unsubscribed (hw : w.Inv cfg s fanned) (hnone : w.joined = none)
    {e : Event} (hacc : w.accepts e.kv.key = true) : e ∉ w.taken := by
  intro hm
  have hfed := (hw.mem_pipe hacc).mpr (Or.inl hm)
  rw [WatchRun.fed, hnone] at hfed
  cases hfed

/-- 受け取る event は、購読の後に配られたものである。 -/
theorem WatchRun.Inv.upTo_lt_of_taken (hw : w.Inv cfg s fanned) (h : s.Exact cfg) {j : Joined}
    (hj : j ∈ w.joined) {e : Event} (hacc : w.accepts e.kv.key = true) (hm : e ∈ w.taken) :
    j.upTo < e.kv.modRevision := by
  have hfed := List.mem_append_left (s.poll.sent.drop fanned).flatten
    ((hw.mem_pipe hacc).mpr (Or.inl hm))
  rw [hw.fed_eq h hj] at hfed
  obtain ⟨r, hr, rfl⟩ := List.mem_map.mp hfed
  rw [eventIn_modRevision]
  exact (mem_between.mp hr).2.1

end

section

variable {s : WatchSys}

/-- 段にある合う event と捨てられた event は、commit された record の event である。 -/
theorem WatchSys.Inv.recorded (h : s.Inv cfg) (hw : w ∈ s.watches) {e : Event}
    (hacc : w.accepts e.kv.key = true) (he : e ∈ s.waiting w ∨ e ∈ w.missed) :
    ∃ r ∈ s.shim.store.committed, e = eventIn cfg s.shim.store.committed r := by
  refine h.shim.events e (List.mem_append_right _ ?_)
  have hpipe := ((h.watches w hw).mem_pipe hacc).mpr
  rcases he with he | he
  · rcases List.mem_append.mp he with he | he
    · exact WatchRun.mem_sent_of_fed (hpipe (Or.inr (Or.inl (List.mem_append.mp he))))
    · exact (List.drop_sublist _ _).flatten.subset he
  · exact WatchRun.mem_sent_of_fed (hpipe (Or.inr (Or.inr he)))

/-- cursor までの event がすべて届いていれば、途中にも、届かなくなったものの中にもない。 -/
theorem WatchSys.Inv.settled_of_delivered (h : s.Inv cfg) (hw : w ∈ s.watches)
    (hopen : w.isOpen = true)
    (hall : ∀ r ∈ s.shim.store.committed,
      w.Owes s.shim.poll.lastWatchRev (eventIn cfg s.shim.store.committed r) →
        eventIn cfg s.shim.store.committed r ∈ w.result.flatten) : s.Settled cfg w := by
  have hinv := h.watches w hw
  have hsorted := h.shim.inv.store.sorted_revision
  have hwf := h.shim.inv.store.tracks.holds.wf
  obtain ⟨events, read, hstart, hphase⟩ := hinv.phase.of_isOpen hopen
  -- 受け取っていない `lastRevision` より後ろの event は、送られていない
  have hlost : ∀ e, e ∈ s.waiting w ∨ e ∈ w.missed → w.lastRevision < e.kv.modRevision →
      ¬ w.Owes s.shim.poll.lastWatchRev e := by
    intro e he hlt howes
    obtain ⟨r, hr, rfl⟩ := h.recorded hw howes.1 he
    refine hinv.phase.not_mem_result hopen hsorted hlt (hinv.not_taken h.shim howes.1 ?_)
      (hall r hr howes)
    refine he.imp_left fun hm => ?_
    rw [WatchSys.waiting, List.mem_append, List.mem_append, or_assoc] at hm
    exact hm
  refine ⟨fun e he howes => ?_, fun e he => hlost e (Or.inl he), fun e he => hlost e (Or.inr he),
    fun hnone r hr hlt howes => ?_, fun hneg j hj r hr hle howes => ?_⟩
  · rcases hphase with ⟨hunsent, hresult, -⟩ | ⟨hunsent, -⟩
    · rw [hunsent, hstart.events_eq] at he
      obtain ⟨r, hr, rfl⟩ := List.mem_map.mp he
      have hr := hstart.isPrefix.subset (List.mem_of_mem_filter hr)
      have hm := hall r (mem_afterTodo.mp hr).1 howes
      rw [hresult] at hm
      exact List.not_mem_nil hm
    · rw [hunsent] at he
      exact List.not_mem_nil he
  · exact hinv.phase.not_mem_result hopen hsorted (by rw [eventIn_modRevision]; exact hlt)
      (hinv.not_taken_of_unsubscribed hnone howes.1) (hall r hr howes)
  · have hlast := (hstart.of_negative hwf hinv.range.1 hneg).2
    have htaken : eventIn cfg s.shim.store.committed r ∉ w.taken := fun hm => by
      have hlt := hinv.upTo_lt_of_taken h.shim hj howes.1 hm
      rw [eventIn_modRevision] at hlt
      exact absurd hlt (not_lt.mpr hle)
    refine hinv.phase.not_mem_result hopen hsorted ?_ htaken (hall r hr howes)
    rw [eventIn_modRevision]
    exact hlast.trans (hwf r hr).rev.pos

/-- 最初の読み出しで送るはずの record は、最初の event の中にある。 -/
theorem WatchSys.Inv.read_of_le (h : s.Inv cfg) (hw : w ∈ s.watches) {events : List Event}
    {read : List RevRecord} (hstart : Started cfg s.shim.store.committed w read events w.lastRevision)
    {r : RevRecord} (hr : r ∈ s.shim.store.committed) (hacc : w.accepts r.key = true)
    (hmin : w.minRevision ≤ r.revision)
    (hle : r.revision ≤ w.lastRevision ∨ (0 ≤ w.minRevision ∧ ∃ j ∈ w.joined, r.revision ≤ j.upTo)) :
    r ∈ read := by
  have hinv := h.watches w hw
  have hwf := h.shim.inv.store.tracks.holds.wf
  rcases hle with hle | ⟨h0, j, hj, hle⟩
  · by_cases h0 : 0 ≤ w.minRevision
    · exact (hstart.mem_read_iff h.shim.inv.store.sorted_revision hwf h0 hinv.range.2 hr hacc).mpr
        ⟨hmin, hle⟩
    · -- 負の `minRevision` では、`lastRevision` も負である
      have hlast := (hstart.of_negative hwf hinv.range.1 (not_le.mp h0)).2
      exact absurd (hle.trans_lt hlast) (not_lt.mpr (hwf r hr).rev.pos.le)
  · exact hstart.covers j hj r ((WatchRun.mem_afterTodo_since hwf h0 hinv.range.2).mpr ⟨hr, hmin⟩) hle

/-- 購読より後ろで cursor までの record の event は、配られたか、broadcaster の手元にある。 -/
theorem WatchSys.Inv.mem_handed (h : s.Inv cfg) (hresumes : s.shim.poll.Resumes) (hw : w ∈ s.watches)
    (hne : s.shim.poll.lastWatchRev ≠ 0) {j : Joined} (hj : j ∈ w.joined) {r : RevRecord}
    (hr : r ∈ s.shim.store.committed) (hup : j.upTo < r.revision)
    (hle : r.revision ≤ s.shim.poll.lastWatchRev) :
    eventIn cfg s.shim.store.committed r
      ∈ w.fed s.shim.poll.sent s.fanned ++ (s.shim.poll.sent.drop s.fanned).flatten := by
  have hinv := h.watches w hw
  obtain ⟨-, start, ho, -⟩ := hinv.joined j hj
  have hhanded := h.shim.lastWatchRev_le hresumes ho hne
  rw [hinv.fed_eq h.shim hj]
  exact List.mem_map.mpr ⟨r, mem_between.mpr ⟨hr, hup, hle.trans hhanded⟩, rfl⟩

/-- 途中にも、届かなくなったものの中にもなければ、cursor までの event はすべて届いている。 -/
theorem WatchSys.Inv.delivered_of_settled (h : s.Inv cfg) (hresumes : s.shim.poll.Resumes)
    (hw : w ∈ s.watches) (hopen : w.isOpen = true) (hne : s.shim.poll.lastWatchRev ≠ 0)
    (hd : s.Settled cfg w) {r : RevRecord} (hr : r ∈ s.shim.store.committed)
    (howes : w.Owes s.shim.poll.lastWatchRev (eventIn cfg s.shim.store.committed r)) :
    eventIn cfg s.shim.store.committed r ∈ w.result.flatten := by
  have hinv := h.watches w hw
  obtain ⟨events, read, hstart, hphase⟩ := hinv.phase.of_isOpen hopen
  have hacc : w.accepts r.key = true := by simpa only [eventIn_key] using howes.1
  have hmin : w.minRevision ≤ r.revision := by simpa only [eventIn_modRevision] using howes.2.1
  have hle : r.revision ≤ s.shim.poll.lastWatchRev := by
    simpa only [eventIn_modRevision] using howes.2.2
  by_cases hread : r ∈ read
  · have hmem : eventIn cfg s.shim.store.committed r ∈ events := by
      rw [hstart.events_eq]
      exact List.mem_map.mpr ⟨r, List.mem_filter.mpr ⟨hread, hacc⟩, rfl⟩
    rcases hphase with ⟨hunsent, -, -⟩ | ⟨-, hresult⟩
    · exact absurd howes (hd.initial _ (hunsent ▸ hmem))
    · rw [hresult]
      exact List.mem_append_left _ hmem
  · have hlast : w.lastRevision < r.revision := not_le.mp fun hle' =>
      hread (h.read_of_le hw hstart hr hacc hmin (Or.inl hle'))
    have hlast' : w.lastRevision < (eventIn cfg s.shim.store.committed r).kv.modRevision := by
      rw [eventIn_modRevision]
      exact hlast
    cases hj : w.joined with
    | none => exact absurd howes (hd.unsubscribed hj r hr hlast)
    | some j =>
      have hup : j.upTo < r.revision := not_le.mp fun hle' => by
        by_cases h0 : 0 ≤ w.minRevision
        · exact hread (h.read_of_le hw hstart hr hacc hmin (Or.inr ⟨h0, j, hj, hle'⟩))
        · exact hd.negative (not_le.mp h0) j hj r hr hle' howes
      rcases List.mem_append.mp (h.mem_handed hresumes hw hne hj hr hup hle) with hm | hm
      · rcases (hinv.mem_pipe howes.1).mp hm with hm | hm | hm
        · rcases hphase with ⟨-, -, htaken⟩ | ⟨-, hresult⟩
          · rw [htaken] at hm
            cases hm
          · rw [hresult]
            exact List.mem_append_right _ (List.mem_filter.mpr ⟨hm, decide_eq_true hlast'⟩)
        · exact absurd howes
            (hd.stages _ (List.mem_append_left _ (List.mem_append.mpr hm)) hlast')
        · exact absurd howes (hd.dropped _ hm hlast')
      · exact absurd howes (hd.stages _ (List.mem_append_right _ hm) hlast')

end

/-- **compaction のない run のどの状態でも、`CurrentRevision` が返す cursor までの event が開いている watch にすべて
届いているのは、途中の段にも、捨てられたものにも、購読や最初の読み出しから漏れたものにも、その event がないとき
であり、そのときに限る。** broadcaster はどの watch の batch を捨ててもよく、`Watch` の `minRevision` は負でも、購読は
失敗してもよい。 -/
theorem progress_bookmarkable_iff (cfg : Config) {as : List WatchLabel} {s : WatchSys}
    (hrun : runSteps (WatchSys.step cfg) .init as = some s)
    (hno : ∀ a ∈ as, a.compacts = false) :
    s.Bookmarkable cfg ↔ (s.shim.poll.lastWatchRev ≠ 0 → ∀ w ∈ s.watches, w.isOpen = true →
      s.Settled cfg w) := by
  have h := WatchSys.inv_run hrun hno
  have hresumes := WatchSys.resumes_run hrun
  unfold WatchSys.Bookmarkable
  refine imp_congr_right fun hne => forall₂_congr fun w hw => imp_congr_right fun hopen => ?_
  rw [show currentRevision cfg s.shim.poll.lastWatchRev s.shim.store.db
    = s.shim.poll.lastWatchRev from if_pos hne]
  exact ⟨h.settled_of_delivered hw hopen,
    fun hd r hr howes => h.delivered_of_settled hresumes hw hopen hne hd hr howes⟩

/-- watch が開いた後に書かれた record を loop が読み、broadcaster に渡して、cursor を進める run。 -/
def queuedRun : List WatchLabel :=
  [.shim (.poll .connect), .shim (.poll .begin_), .open_ [47] 0 true, .watch 0 (.read 5),
    .watch 0 .sendInitial, .shim (.store (.write (.create [47, 97] [1] 0) 0 1 2)),
    .shim (.poll (.read 5)), .shim (.poll .apply), .shim (.poll .hand), .shim (.poll .advance)]

/-- batch が一つ目の watch の forwarder を通り、鍵の合わない二つ目の watch の分は捨てられる run。 -/
def drainedRun : List WatchLabel :=
  queuedRun ++ [.open_ [47, 98] 0 true, .watch 1 (.read 5), .fanOut [1], .watch 0 .filter,
    .watch 0 .forward]

/-- その後では、cursor までの event が届いている。 -/
theorem progress_bookmarkable_of_drained :
    ∃ s, runSteps (WatchSys.step .default) .init drainedRun = some s ∧
      s.shim.poll.lastWatchRev = 2 ∧
      s.watches.map (fun w => (w.isOpen, w.missed.length)) = [(true, 0), (true, 1)] ∧
      s.Bookmarkable .default := by
  have h : (runSteps (WatchSys.step .default) .init drainedRun).any (fun s =>
      decide (s.shim.poll.lastWatchRev = 2 ∧
        s.watches.map (fun w => (w.isOpen, w.missed.length)) = [(true, 0), (true, 1)] ∧
        ∀ w ∈ s.watches, s.Settled .default w)) = true := by
    decide +kernel
  obtain ⟨s, hs, hrev, hopen, hd⟩ := exists_of_any_decide h
  exact ⟨s, hs, hrev, hopen,
    (progress_bookmarkable_iff .default hs (by decide)).mpr fun _ w hw _ => hd w hw⟩

/-- `CurrentRevision` は 2 を返すが、revision 2 の event は broadcaster の手元にあって、購読できて打ち切られても
いない、開いている watch に届いていない。 -/
theorem progress_ahead_of_watch :
    ∃ s, runSteps (WatchSys.step .default) .init queuedRun = some s ∧
      (∀ a ∈ queuedRun, a.compacts = false) ∧
      currentRevision .default s.shim.poll.lastWatchRev s.shim.store.db = 2 ∧
      s.shim.store.committed.map RevRecord.revision = [2] ∧
      s.watches.map (fun w => (w.isOpen, w.joined.isSome)) = [(true, true)] ∧
      (∀ w ∈ s.watches, w.missed = [] ∧ w.result = []) ∧
      ¬ s.Bookmarkable .default := by
  have h : (runSteps (WatchSys.step .default) .init queuedRun).any (fun s =>
      decide (currentRevision .default s.shim.poll.lastWatchRev s.shim.store.db = 2 ∧
        s.shim.store.committed.map RevRecord.revision = [2] ∧
        s.watches.map (fun w => (w.isOpen, w.joined.isSome)) = [(true, true)] ∧
        (∀ w ∈ s.watches, w.missed = [] ∧ w.result = []) ∧
        ¬ s.Bookmarkable .default)) = true := by
    decide +kernel
  obtain ⟨s, hs, h⟩ := exists_of_any_decide h
  exact ⟨s, hs, by decide, h⟩

end KubeFdb
