import KubeFdb.Driver.Poll
import KubeFdb.Properties.After
import KubeFdb.System.Store

/-!
# poll の loop と store

一つの shim の poll の loop が、ほかの client と compaction と同じ store を読む。loop は cursor より後ろの
record を順に読んで渡すが、`afterBatch` は watermark を見ない。loop がまだ読んでいない record を
compaction が消すと、loop はそれに気付かずに cursor を進め、その event は誰にも届かない。

compaction が loop の読んだ位置より後ろの record を消さない run（`SparesUnpolled`）では、cursor までの
record はすべてちょうど一度ずつ渡されている（`polled_exactly_once`）。
-/

namespace KubeFdb

open Tuple

/-- store と一つの shim の poll。 -/
structure Shim where
  store : Store
  poll : Poll
  /-- loop が最初に始まった revision の ghost。 -/
  origin : Option Int
deriving DecidableEq

def Shim.init : Shim := ⟨.init, .init, none⟩

inductive ShimLabel where
  | store (a : StoreLabel)
  | poll (a : PollLabel)
deriving DecidableEq

def Shim.step (cfg : Config) (s : Shim) : ShimLabel → Option Shim
  | .store a => (s.store.step cfg a).map (fun t => { s with store := t })
  | .poll a => (s.poll.step cfg s.store.db a).map (fun p =>
      { s with
        poll := p
        origin :=
          if a = .connect then
            s.origin.or (some (currentRevision cfg s.poll.lastWatchRev s.store.db))
          else s.origin })

/-! ## loop の位置 -/

namespace Poll

/-- 次の iteration が読み始める revision。 -/
def cursor (p : Poll) : Int :=
  match p.pc with
  | .starting pollStart => pollStart
  | _ => p.lastWatchRev

/-- 読んだが、まだ cursor を進めていない event。 -/
def pending (p : Poll) : List Event :=
  match p.pc with
  | .fetched _ events => events
  | .applied events => events
  | .handed events => events
  | _ => []

/-- loop が読み終えた revision。 -/
def position (p : Poll) : Int :=
  match p.pc with
  | .starting pollStart => pollStart
  | .fetched lastRev events => lastModRevision events lastRev
  | .applied events => lastModRevision events p.lastWatchRev
  | .handed events => lastModRevision events p.lastWatchRev
  | _ => p.lastWatchRev

/-- 渡し終えた revision。 -/
def handedTo (p : Poll) : Int :=
  match p.pc with
  | .handed events => lastModRevision events p.lastWatchRev
  | _ => p.cursor

end Poll

/-- compaction の batch の手の前の条件。loop の読んだ位置より後ろにあって batch が読む record は、
生きていて鍵の最新であり、したがって消えない。 -/
def SparesUnpolled (s : Shim) : ShimLabel → Prop
  | .store (.compactBatch i n _ _) => s.origin.isSome = true → ∀ x ∈ s.store.compacts[i]?,
      ∀ h ∈ (unreadHeaders x.1 s.store.db x.2.beginKey).take (n + 1),
        s.poll.position < versionstampToInt64 h.1 →
        h.2.isDelete = false ∧ ∀ last ∈ s.store.db.getLast h.2.key, last.rev = h.1
  | _ => True

instance (s : Shim) : (a : ShimLabel) → Decidable (SparesUnpolled s a)
  | .store (.compactBatch i n _ _) => inferInstanceAs (Decidable (_ → ∀ x ∈ s.store.compacts[i]?,
      ∀ h ∈ (unreadHeaders x.1 s.store.db x.2.beginKey).take (n + 1), _ → _ ∧ _))
  | .store (.tick _) => .isTrue trivial
  | .store (.write _ _ _ _) => .isTrue trivial
  | .store (.startCompact _) => .isTrue trivial
  | .poll _ => .isTrue trivial

/-- loop が始まってから渡した event は、渡し終えた revision までに commit された record の event を、
すべて一度ずつ順に並べたものである。 -/
def Shim.Delivered (cfg : Config) (s : Shim) : Prop :=
  ∀ start ∈ s.origin, Reports cfg s.poll.sent.flatten
    (between RevRecord.revision s.store.committed start s.poll.handedTo)

instance (cfg : Config) (s : Shim) : Decidable (s.Delivered cfg) :=
  inferInstanceAs (Decidable (∀ start ∈ s.origin, Reports cfg _ _))

/-! ## loop の一手 -/

/-- loop の手がすることのすべて。 -/
inductive Poll.Effect (cfg : Config) (db : Db) (p : Poll) : PollLabel → Poll → Prop
  | connect (hpc : p.pc = .stopped) :
    Effect cfg db p .connect { p with pc := .starting (currentRevision cfg p.lastWatchRev db) }
  | begin_ (pollStart : Int) (hpc : p.pc = .starting pollStart) :
    Effect cfg db p .begin_ { p with pc := .top, lastWatchRev := pollStart, counts := .empty }
  | read (n : Nat) (lastRev : Int) (events : List Event) (hpc : p.pc = .top)
      (hread : afterBatch cfg p.lastWatchRev (fun _ => true) n db = (lastRev, events, .ok ())) :
    Effect cfg db p (.read n) { p with pc := .fetched lastRev events }
  /-- 失敗した iteration。 -/
  | stay (a : PollLabel) (ha : a ≠ .connect) (hpc : p.pc = .top) : Effect cfg db p a p
  | apply (lastRev : Int) (events : List Event) (hpc : p.pc = .fetched lastRev events)
      (hne : events ≠ []) :
    Effect cfg db p .apply { p with pc := .applied events, counts := p.counts.apply events }
  | hand (events : List Event) (hpc : p.pc = .applied events) :
    Effect cfg db p .hand { p with pc := .handed events, sent := p.sent ++ [events] }
  /-- 新しい record はなかった。 -/
  | caughtUp (lastRev : Int) (hpc : p.pc = .fetched lastRev []) :
    Effect cfg db p .advance { p with pc := .top, lastWatchRev := lastRev }
  | advance (events : List Event) (hpc : p.pc = .handed events) :
    Effect cfg db p .advance
      { p with pc := .top, lastWatchRev := lastModRevision events p.lastWatchRev }
  | stop (hpc : p.pc = .top) : Effect cfg db p .stop { p with pc := .stopped }

theorem Poll.step_effect {cfg : Config} {db : Db} {p p' : Poll} {a : PollLabel}
    (hs : p.step cfg db a = some p') : Poll.Effect cfg db p a p' := by
  cases a with
  | connect =>
    simp only [Poll.step] at hs
    split at hs
    · next hpc => cases hs; exact .connect hpc
    · cases hs
  | begin_ =>
    simp only [Poll.step] at hs
    split at hs
    · next pollStart hpc => cases hs; exact .begin_ pollStart hpc
    · cases hs
  | read n =>
    simp only [Poll.step] at hs
    split at hs
    · next hpc =>
      split at hs
      · cases hs; exact .stay _ (by simp) hpc
      · next lastRev events hread => cases hs; exact .read n lastRev events hpc hread
    · cases hs
  | fail =>
    simp only [Poll.step] at hs
    split at hs
    · next hpc => cases hs; exact .stay _ (by simp) hpc
    · cases hs
  | apply =>
    simp only [Poll.step] at hs
    split at hs
    · next lastRev events hpc =>
      split at hs
      · next hne => cases hs; exact .apply lastRev events hpc hne
      · cases hs
    · cases hs
  | hand =>
    simp only [Poll.step] at hs
    split at hs
    · next events hpc => cases hs; exact .hand events hpc
    · cases hs
  | advance =>
    simp only [Poll.step] at hs
    split at hs
    · next lastRev hpc => cases hs; exact .caughtUp lastRev hpc
    · next events hpc => cases hs; exact .advance events hpc
    · cases hs
  | stop =>
    simp only [Poll.step] at hs
    split at hs
    · next hpc => cases hs; exact .stop hpc
    · cases hs

theorem lastModRevision_of_ne_nil {events : List Event} (h : events ≠ []) (rev rev' : Int) :
    lastModRevision events rev = lastModRevision events rev' := by
  obtain ⟨e, he⟩ := Option.isSome_iff_exists.mp (List.getLast?_isSome.mpr h)
  unfold lastModRevision
  rw [he]

/-- event の列の最後の revision。 -/
theorem Reports.lastModRevision_eq {cfg : Config} {events : List Event} {rs : List RevRecord}
    (h : Reports cfg events rs) (rev : Int) :
    lastModRevision events rev = (rs.getLast?.map RevRecord.revision).getD rev := by
  have hl := congrArg List.getLast? h.modRevision
  rw [List.getLast?_map, List.getLast?_map] at hl
  unfold lastModRevision
  rw [← hl]
  cases events.getLast? with
  | none => rfl
  | some e => rfl

/-! ## 不変条件 -/

/-- `start` から始まった loop が保つもの。 -/
structure Polled (cfg : Config) (st : Store) (p : Poll) (recs : List RevRecord) (start : Int) :
    Prop where
  pos : 0 < start
  start_le : start ≤ p.cursor
  cursor_le : p.cursor ≤ p.position
  position_le : p.position ≤ st.db.getLatestRev cfg
  /-- まだ読んでいない record は、どれも残っている。 -/
  kept : ∀ r ∈ st.committed, p.position < r.revision → r ∈ recs
  pending : Reports cfg p.pending (between RevRecord.revision st.committed p.cursor p.position)
  sent : Reports cfg p.sent.flatten (between RevRecord.revision st.committed start p.handedTo)

variable {cfg : Config} {st st' : Store} {p p' : Poll} {recs recs' : List RevRecord} {start : Int}

theorem Store.Inv.sorted_revision (h : st.Inv cfg recs) :
    SortedBy RevRecord.revision st.committed :=
  KubeFdb.sorted_revision h.tracks.sorted h.tracks.wf

theorem Poll.handedTo_le (h : p.cursor ≤ p.position) : p.handedTo ≤ p.position := by
  unfold Poll.handedTo
  split
  · next events hpc =>
    unfold Poll.position
    rw [hpc]
  · exact h

/-- 空の区間に event はない。 -/
theorem reports_between_nil {l : List RevRecord} {a b : Int} (h : b ≤ a) :
    Reports cfg [] (between RevRecord.revision l a b) := by
  rw [between_of_le h]
  exact reports_nil

/-- 位置までの record は、新しい commit で変わらない。 -/
theorem Polled.wrote {r : RevRecord} (hp : Polled cfg st p recs start)
    (hst : st'.committed = st.committed ++ [r]) (hlatest : st.db.getLatestRev cfg < r.revision)
    (hle : st.db.getLatestRev cfg ≤ st'.db.getLatestRev cfg) :
    Polled cfg st' p (recs ++ [r]) start := by
  have hnew : p.position < r.revision := hp.position_le.trans_lt hlatest
  refine ⟨hp.pos, hp.start_le, hp.cursor_le, hp.position_le.trans hle, fun x hx hlt => ?_, ?_, ?_⟩
  · rw [hst] at hx
    rcases List.mem_append.mp hx with hx | hx
    · exact List.mem_append_left _ (hp.kept x hx hlt)
    · exact List.mem_append_right _ hx
  · rw [hst, between_concat hnew]
    exact hp.pending
  · rw [hst, between_concat ((Poll.handedTo_le hp.cursor_le).trans_lt hnew)]
    exact hp.sent

/-- store の手は、読んだ位置までの record を変えない。 -/
theorem Polled.store {a : StoreLabel} (h : st.Inv cfg recs) (hp : Polled cfg st p recs start)
    (he : Store.Effect cfg st recs a st' recs')
    (hspare : ∀ {i n v known endRev c begin_}, a = .compactBatch i n v known →
      st.compacts[i]? = some (endRev, c) → c.beginKey = begin_.map (chunkKey · maxInt64) →
      ∀ r ∈ compactVisits recs begin_ endRev n, p.position < r.revision →
        discards recs r = false) :
    Polled cfg st' p recs' start := by
  have hle := he.latest_le h
  cases he with
  | idle _ ha v hv hv63 calls hcalls =>
    exact ⟨hp.pos, hp.start_le, hp.cursor_le, hp.position_le.trans hle, hp.kept, hp.pending, hp.sent⟩
  | wrote op lastWriteUUID uuid v record size hc ht hw =>
    exact hp.wrote rfl (incrementAndGet_spec h.bounded hc).2 hle
  | compacted i n v known endRev c c' db' begin_ hc hi hrun hb hbatch heq =>
    refine ⟨hp.pos, hp.start_le, hp.cursor_le, hp.position_le.trans hle, fun r hr hlt => ?_,
      hp.pending, hp.sent⟩
    refine mem_compactRecs.mpr ⟨hp.kept r hr hlt, ?_⟩
    rintro ⟨hvis, hdis⟩
    exact absurd (hspare rfl hi hb r hvis hlt) (by rw [hdis]; decide)

/-- 読む列は、cursor より後ろの commit された record である。 -/
theorem Polled.afterTodo_eq (h : st.Inv cfg recs) (hp : Polled cfg st p recs start)
    (hpc : p.position = p.lastWatchRev) (hcur : p.cursor = p.lastWatchRev) :
    afterTodo recs p.lastWatchRev none
      = st.committed.filter (fun r => decide (p.lastWatchRev < r.revision)) := by
  have h0 : 0 ≤ p.lastWatchRev := (hp.pos.le.trans hp.start_le).trans_eq hcur
  have h63 : p.lastWatchRev < 2 ^ 63 := (hpc ▸ hp.position_le).trans_lt h.bounded.lt
  refine SortedBy.eq_of_mem_iff (afterTodo_sorted h.tracks.holds.sorted _ none)
    (h.tracks.sorted.filter _) fun r => ?_
  rw [mem_afterTodo, List.mem_filter, decide_eq_true_eq]
  constructor
  · rintro ⟨hr, -, hlt⟩
    exact ⟨h.tracks.sub r hr, ((h.tracks.holds.wf r hr).int64_lt_iff h0 h63).mp hlt⟩
  · rintro ⟨hr, hlt⟩
    have hrm := hp.kept r hr (hpc ▸ hlt)
    exact ⟨hrm, by simp, ((h.tracks.holds.wf r hrm).int64_lt_iff h0 h63).mpr hlt⟩

/-- 位置が進むだけの手は、cursor と渡した event を変えない。 -/
theorem Polled.fetched (hp : Polled cfg st p recs start) (hpc : p.pc = .top) {lastRev : Int}
    {events : List Event} (hle : p.lastWatchRev ≤ lastModRevision events lastRev)
    (hlatest : lastModRevision events lastRev ≤ st.db.getLatestRev cfg)
    (hrep : Reports cfg events (between RevRecord.revision st.committed p.lastWatchRev
      (lastModRevision events lastRev))) :
    Polled cfg st { p with pc := .fetched lastRev events } recs start := by
  have hstart := hp.start_le
  have hkept := hp.kept
  have hsent := hp.sent
  simp only [Poll.cursor, Poll.position, Poll.handedTo, hpc] at hstart hkept hsent
  exact ⟨hp.pos, hstart, hle, hlatest, fun r hr hlt => hkept r hr (hle.trans_lt hlt), hrep, hsent⟩

/-- `afterBatch` は、cursor より後ろの record を先頭から読む。 -/
theorem Polled.read_reports (h : st.Inv cfg recs) (hp : Polled cfg st p recs start)
    (hpc : p.pc = .top) {n : Nat} {lastRev : Int} {events : List Event}
    (hread : afterBatch cfg p.lastWatchRev (fun _ => true) n st.db = (lastRev, events, .ok ())) :
    lastRev = st.db.getLatestRev cfg ∧ ∃ m,
      Reports cfg events
        ((st.committed.filter (fun r => decide (p.lastWatchRev < r.revision))).take m) ∧
      (st.committed.filter (fun r => decide (p.lastWatchRev < r.revision)) ≠ [] → 0 < m) := by
  have hcur : p.cursor = p.lastWatchRev := by unfold Poll.cursor; rw [hpc]
  have hpos : p.position = p.lastWatchRev := by unfold Poll.position; rw [hpc]
  obtain ⟨m, hm, hne⟩ := afterBatch_eq cfg h.tracks.holds p.lastWatchRev (fun _ => true) n
  rw [hread] at hm
  obtain ⟨hlast, hm⟩ := Prod.mk.inj hm
  obtain ⟨hevents, -⟩ := Prod.mk.inj hm
  have hrep := reports_eventsOf cfg (fun _ => true) recs ((afterTodo recs p.lastWatchRev none).take m)
  rw [← hevents, List.filter_eq_self.mpr fun _ _ => rfl] at hrep
  rw [hp.afterTodo_eq h hpos hcur] at hrep hne
  exact ⟨hlast, m, hrep, hne⟩

/-- poll の読み出しは、cursor から読み終えた位置までの record の event を返す。 -/
theorem Polled.read (h : st.Inv cfg recs) (hp : Polled cfg st p recs start) (hpc : p.pc = .top)
    {n : Nat} {lastRev : Int} {events : List Event}
    (hread : afterBatch cfg p.lastWatchRev (fun _ => true) n st.db = (lastRev, events, .ok ())) :
    Polled cfg st { p with pc := .fetched lastRev events } recs start ∧
      ((∃ r ∈ st.committed, p.lastWatchRev < r.revision) → events ≠ []) := by
  obtain ⟨hlast, m, hrep, hne⟩ := hp.read_reports h hpc hread
  have hevents := hrep.lastModRevision_eq lastRev
  cases hz : ((st.committed.filter (fun r => decide (p.lastWatchRev < r.revision))).take m).getLast? with
  | none =>
    -- 読む record はなかった
    rw [hz] at hevents
    have hnil := List.getLast?_eq_none_iff.mp hz
    have htodo : ∀ r ∈ st.committed, ¬ p.lastWatchRev < r.revision := by
      rcases List.take_eq_nil_iff.mp hnil with h0 | hnil
      · intro r hr hlt
        refine absurd h0 (hne (List.ne_nil_of_mem (a := r) ?_)).ne'
        exact List.mem_filter.mpr ⟨hr, decide_eq_true hlt⟩
      · intro r hr hlt
        exact List.filter_eq_nil_iff.mp hnil r hr (decide_eq_true hlt)
    have hempty : between RevRecord.revision st.committed p.lastWatchRev
        (lastModRevision events lastRev) = [] :=
      List.filter_eq_nil_iff.mpr fun r hr hlt =>
        htodo r hr (of_decide_eq_true (Bool.and_eq_true_iff.mp hlt).1)
    have hle : p.lastWatchRev ≤ st.db.getLatestRev cfg := by
      have hle := hp.position_le
      simp only [Poll.position, hpc] at hle
      exact hle
    refine ⟨hp.fetched hpc ?_ ?_ ?_, ?_⟩
    · rw [hevents, hlast]; exact hle
    · rw [hevents, hlast]; exact le_rfl
    · rw [hempty, ← hnil]; exact hrep
    · rintro ⟨r, hr, hlt⟩
      exact absurd hlt (htodo r hr)
  | some z =>
    rw [hz] at hevents
    have hzmem := List.mem_filter.mp (List.mem_of_mem_take (List.mem_of_getLast? hz))
    refine ⟨hp.fetched hpc ?_ ?_ ?_, fun _ hnil => ?_⟩
    · rw [hevents]
      exact (of_decide_eq_true hzmem.2).le
    · rw [hevents]
      exact h.bounded.le z hzmem.1
    · rw [hevents]
      show Reports cfg events (between RevRecord.revision st.committed p.lastWatchRev z.revision)
      rw [between_getLast h.sorted_revision hz]
      exact hrep
    · rw [hnil] at hrep
      rw [List.map_eq_nil_iff.mp hrep.modRevision.symm] at hz
      cases hz

/-- loop の手は不変条件を保つ。 -/
theorem Polled.poll {a : PollLabel} (h : st.Inv cfg recs) (hp : Polled cfg st p recs start)
    (he : Poll.Effect cfg st.db p a p') : Polled cfg st p' recs start := by
  have hsorted := h.sorted_revision
  obtain ⟨hpos, hstart, hcur, hlatest, hkept, hpend, hsent⟩ := hp
  cases he with
  | connect hpc =>
    -- 二度目からは、前の loop の cursor から始まる
    simp only [Poll.cursor, Poll.position, Poll.handedTo, Poll.pending, hpc] at *
    have hne : p.lastWatchRev ≠ 0 := by omega
    rw [show currentRevision cfg p.lastWatchRev st.db = p.lastWatchRev from if_pos hne]
    exact ⟨hpos, hstart, le_rfl, hlatest, hkept, hpend, hsent⟩
  | begin_ pollStart hpc =>
    simp only [Poll.cursor, Poll.position, Poll.handedTo, Poll.pending, hpc] at *
    exact ⟨hpos, hstart, le_rfl, hlatest, hkept, hpend, hsent⟩
  | read n lastRev events hpc hread =>
    exact (Polled.read h ⟨hpos, hstart, hcur, hlatest, hkept, hpend, hsent⟩ hpc hread).1
  | stay _ ha hpc => exact ⟨hpos, hstart, hcur, hlatest, hkept, hpend, hsent⟩
  | apply lastRev events hpc hne =>
    have hsame := lastModRevision_of_ne_nil hne lastRev p.lastWatchRev
    simp only [Poll.cursor, Poll.position, Poll.handedTo, Poll.pending, hpc, hsame] at *
    exact ⟨hpos, hstart, hcur, hlatest, hkept, hpend, hsent⟩
  | hand events hpc =>
    simp only [Poll.cursor, Poll.position, Poll.handedTo, Poll.pending, hpc] at *
    refine ⟨hpos, hstart, hcur, hlatest, hkept, hpend, ?_⟩
    show Reports cfg (p.sent ++ [events]).flatten (between RevRecord.revision st.committed start
      (lastModRevision events p.lastWatchRev))
    rw [List.flatten_append, List.flatten_singleton, ← between_append hsorted hstart hcur]
    exact hsent.append hpend
  | caughtUp lastRev hpc =>
    simp only [Poll.cursor, Poll.position, Poll.handedTo, Poll.pending, hpc, lastModRevision,
      List.getLast?_nil] at *
    have hnil : between RevRecord.revision st.committed p.lastWatchRev lastRev = [] :=
      List.map_eq_nil_iff.mp hpend.symm
    refine ⟨hpos, hstart.trans hcur, le_rfl, hlatest, hkept, reports_between_nil le_rfl, ?_⟩
    show Reports cfg p.sent.flatten (between RevRecord.revision st.committed start lastRev)
    rw [← between_append hsorted hstart hcur, hnil, List.append_nil]
    exact hsent
  | advance events hpc =>
    simp only [Poll.cursor, Poll.position, Poll.handedTo, Poll.pending, hpc] at *
    exact ⟨hpos, hstart.trans hcur, le_rfl, hlatest, hkept, reports_between_nil le_rfl, hsent⟩
  | stop hpc =>
    simp only [Poll.cursor, Poll.position, Poll.handedTo, Poll.pending, hpc] at *
    exact ⟨hpos, hstart, hcur, hlatest, hkept, hpend, hsent⟩

/-- 最初の loop は、その時点の最新の revision から始まる。 -/
theorem polled_first (h : st.Inv cfg recs) :
    Polled cfg st { Poll.init with pc := .starting (currentRevision cfg 0 st.db) } recs
      (currentRevision cfg 0 st.db) := by
  have hcur : currentRevision cfg 0 st.db = st.db.getLatestRev cfg := rfl
  refine ⟨hcur ▸ h.bounded.pos, le_rfl, le_rfl, hcur.le, fun r hr hlt => ?_,
    reports_between_nil le_rfl, reports_between_nil le_rfl⟩
  exact absurd (h.bounded.le r hr) (not_le.mpr (hcur ▸ hlt))

/-! ## run 全体 -/

/-- run を通して保つもの。 -/
structure Shim.Inv (cfg : Config) (s : Shim) (recs : List RevRecord) : Prop where
  store : s.store.Inv cfg recs
  fresh : s.origin = none → s.poll = .init
  polled : ∀ start, s.origin = some start → Polled cfg s.store s.poll recs start

theorem Shim.init_inv (cfg : Config) : Shim.init.Inv cfg [] :=
  ⟨Store.init_inv cfg, fun _ => rfl, fun _ h => by cases h⟩

/-- 手の前の条件から、消えない record を得る。 -/
theorem discards_of_sparesUnpolled {s : Shim} (h : s.store.Inv cfg recs) {i n v : Nat} {known : Bool}
    {endRev : Int} {c : CompactCall} {begin_ : Option Versionstamp}
    (hok : SparesUnpolled s (.store (.compactBatch i n v known)))
    (horigin : s.origin.isSome = true) (hi : s.store.compacts[i]? = some (endRev, c))
    (hb : c.beginKey = begin_.map (chunkKey · maxInt64)) :
    ∀ r ∈ compactVisits recs begin_ endRev n, s.poll.position < r.revision →
      discards recs r = false := by
  intro r hr hlt
  have hh := h.tracks.holds
  have hrm := (mem_compactTodo.mp (mem_of_mem_compactVisits hr)).1
  obtain ⟨hd, hlast⟩ := hok horigin (endRev, c) hi (r.rev, ByRevision.recordToTuple r.record) (by
    rw [hb, unreadHeaders_eq hh, ← List.map_take]
    exact List.mem_map.mpr ⟨r, hr, rfl⟩) hlt
  have hnew := (newest_eq_some_iff hh.sorted).mp ((getLast_rev_iff hh hrm).mp hlast)
  rw [← Bool.not_eq_true, discards_iff]
  rintro (⟨r', hr', hk, hlt'⟩ | hdel)
  · exact absurd (hnew.2.2 r' hr' hk) (not_le.mpr hlt')
  · exact absurd (hd.symm.trans hdel) (by decide)

theorem Shim.inv_store {s : Shim} {a : StoreLabel} (h : s.Inv cfg recs)
    (hok : SparesUnpolled s (.store a)) (he : Store.Effect cfg s.store recs a st' recs') :
    Shim.Inv cfg { s with store := st' } recs' := by
  refine ⟨h.store.effect he, h.fresh, fun start ho => ?_⟩
  refine (h.polled start ho).store h.store he fun ha hi hb => ?_
  subst ha
  exact discards_of_sparesUnpolled h.store hok (by rw [ho]; rfl) hi hb

/-- 始まる前の loop ができるのは `connect` だけである。 -/
theorem Poll.Effect.of_init {db : Db} {a : PollLabel} (he : Poll.Effect cfg db .init a p') :
    a = .connect ∧ p' = { Poll.init with pc := .starting (currentRevision cfg 0 db) } := by
  cases he with
  | connect hpc => exact ⟨rfl, rfl⟩
  | begin_ pollStart hpc => cases hpc
  | read n lastRev events hpc hread => cases hpc
  | stay _ ha hpc => cases hpc
  | apply lastRev events hpc hne => cases hpc
  | hand events hpc => cases hpc
  | caughtUp lastRev hpc => cases hpc
  | advance events hpc => cases hpc
  | stop hpc => cases hpc

theorem Shim.inv_poll {s : Shim} {a : PollLabel} (h : s.Inv cfg recs)
    (he : Poll.Effect cfg s.store.db s.poll a p') :
    Shim.Inv cfg
      { s with
        poll := p'
        origin :=
          if a = .connect then
            s.origin.or (some (currentRevision cfg s.poll.lastWatchRev s.store.db))
          else s.origin } recs := by
  cases hor : s.origin with
  | none =>
    have hinit := h.fresh hor
    rw [hinit] at he ⊢
    obtain ⟨rfl, rfl⟩ := he.of_init
    refine ⟨h.store, fun ho => ?_, fun start ho => ?_⟩
    · cases ho
    · cases ho
      exact polled_first h.store
  | some start =>
    refine ⟨h.store, fun ho => ?_, fun start' ho => ?_⟩
    · simp at ho
    · simp only [Option.some_or, ite_self] at ho
      cases ho
      exact (h.polled start hor).poll h.store he

theorem Shim.inv_step {s s' : Shim} {a : ShimLabel} (h : s.Inv cfg recs) (hok : SparesUnpolled s a)
    (hs : s.step cfg a = some s') : ∃ recs', s'.Inv cfg recs' := by
  cases a with
  | store a =>
    obtain ⟨t, ht, rfl⟩ := Option.map_eq_some_iff.mp hs
    obtain ⟨recs', he⟩ := Store.step_effect h.store ht
    exact ⟨recs', Shim.inv_store h hok he⟩
  | poll a =>
    obtain ⟨p', hp', rfl⟩ := Option.map_eq_some_iff.mp hs
    exact ⟨recs, Shim.inv_poll h (Poll.step_effect hp')⟩

/-- 条件を満たす run のどの状態でも、loop が始まってから cursor までに commit された record は、
すべてちょうど一度ずつ渡されている。cursor より後ろに record があれば、次の読み出しは少なくとも一つの
event を読む。 -/
theorem polled_exactly_once (cfg : Config) {as : List ShimLabel} {s : Shim}
    (hrun : runSteps (Shim.step cfg) .init as = some s)
    (hok : StepsMeet (Shim.step cfg) SparesUnpolled .init as) :
    s.Delivered cfg ∧
      (s.poll.pc = .top → (∃ r ∈ s.store.committed, s.poll.lastWatchRev < r.revision) →
        ∀ n, ∃ lastRev events, events ≠ [] ∧
          s.poll.step cfg s.store.db (.read n)
            = some { s.poll with pc := .fetched lastRev events }) := by
  obtain ⟨recs, h⟩ : ∃ recs, s.Inv cfg recs := by
    refine run_invariant_of SparesUnpolled (P := fun s => ∃ recs, Shim.Inv cfg s recs) ?_
      ⟨[], Shim.init_inv cfg⟩ hok hrun
    rintro s a s' ⟨recs, h⟩ hok hs
    exact Shim.inv_step h hok hs
  refine ⟨fun start ho => (h.polled start ho).sent, fun hpc hex n => ?_⟩
  cases hor : s.origin with
  | none => rw [h.fresh hor] at hpc; cases hpc
  | some start =>
    obtain ⟨m, hm, -⟩ := afterBatch_eq cfg h.store.tracks.holds s.poll.lastWatchRev (fun _ => true) n
    obtain ⟨-, hne⟩ := (h.polled start hor).read h.store hpc hm
    refine ⟨s.store.db.getLatestRev cfg, _, hne hex, ?_⟩
    simp only [Poll.step]
    rw [if_pos hpc, hm]

/-- loop が読んだ後の record を compaction が消す run。 -/
def polledRun : List ShimLabel :=
  [.poll .connect, .poll .begin_, .store (.write (.create [47, 97] [1] 0) 0 1 2), .poll (.read 5),
    .poll .apply, .store (.write (.update [47, 97] [2] 2 0) 0 2 3), .store (.startCompact 2),
    .store (.compactBatch 0 5 4 true), .poll .hand, .poll .advance, .poll .fail, .poll (.read 5),
    .poll .apply, .poll .hand]

theorem polled_exactly_once_of_spared :
    ∃ s, runSteps (Shim.step .default) .init polledRun = some s ∧ s.Delivered .default := by
  obtain ⟨s, hs⟩ := Option.isSome_iff_exists.mp
    (show (runSteps (Shim.step .default) .init polledRun).isSome = true by decide +kernel)
  exact ⟨s, hs, (polled_exactly_once .default hs (by decide +kernel)).1⟩

/-- loop が読む前の record を compaction が消す run。 -/
def unpolledRun : List ShimLabel :=
  [.poll .connect, .poll .begin_, .store (.write (.create [47, 97] [1] 0) 0 1 2),
    .store (.write (.update [47, 97] [2] 2 0) 0 2 3), .store (.startCompact 3),
    .store (.compactBatch 0 5 4 true), .poll (.read 5), .poll .apply, .poll .hand, .poll .advance]

/-- cursor は revision 3 に進んだが、revision 2 の event は渡されていない。loop は走り続けている。 -/
theorem compaction_loses_event :
    ∃ s, runSteps (Shim.step .default) .init unpolledRun = some s ∧ s.poll.pc = .top ∧
      s.origin = some 1 ∧ s.poll.lastWatchRev = 3 ∧
      s.store.committed.map RevRecord.revision = [2, 3] ∧
      s.poll.sent.flatten.map (fun e => e.kv.modRevision) = [3] ∧ ¬ s.Delivered .default := by
  have h : (runSteps (Shim.step .default) .init unpolledRun).any (fun s =>
      decide (s.poll.pc = .top ∧ s.origin = some 1 ∧ s.poll.lastWatchRev = 3 ∧
        s.store.committed.map RevRecord.revision = [2, 3] ∧
        s.poll.sent.flatten.map (fun e => e.kv.modRevision) = [3] ∧
        ¬ s.Delivered .default)) = true := by
    decide +kernel
  exact exists_of_any_decide h

end KubeFdb
