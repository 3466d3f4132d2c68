import KubeFdb.Properties.Ongoing
import KubeFdb.Properties.Views
import KubeFdb.System.Store

/-!
# pin しない一覧と snapshot

pin しない上限なしの `List` と `Count` は、最初の batch の revision `V` の時点の答えを返すはずである。
後の batch は別の snapshot を読むが、`V` より新しい record を読み飛ばすので、書き込みは答えを変えない。
compaction は違う。`V` の時点で鍵の最新だった record も、`V` の後で書き換えられていれば消す。
`maxRevision` が 0 の走査は watermark を見ないので、error にもならない。

batch の間の compaction が、走査がこれから使う record を消さない run（`SparesScan`）では、
答えは `V` の時点のものである（`scan_is_snapshot`）。
-/

namespace KubeFdb

open Tuple

/-- store と、途中の `List` または `Count`。 -/
structure ListSys (σ : Type) where
  store : Store
  call : ListCall σ
  /-- 最初の batch が読んだ store の ghost。 -/
  snapshot : Option Store

inductive ListLabel where
  | store (a : StoreLabel)
  | batch (n : Nat)
deriving DecidableEq

variable {σ : Type} {cfg : Config} {p : InnerProcessor σ} {spec : InnerSpec p}
  {prefix_ startKey : Key} {range : Bytes × Bytes}

def ListSys.init (inner : σ) : ListSys σ := ⟨.init, .start (newRecordCollector 0 inner), none⟩

/-- 一手。batch の transaction は store を変えない。 -/
def ListSys.step (cfg : Config) (p : InnerProcessor σ) (range : Bytes × Bytes) (s : ListSys σ) :
    ListLabel → Option (ListSys σ)
  | .store a => (s.store.step cfg a).map (fun t => { s with store := t })
  | .batch n =>
    if s.call.status = .running then
      some { s with
        call := (s.call.batch (RecordCollector.processor p cfg) (indexRange range) n s.store.db).1
        snapshot := s.snapshot.or (some s.store) }
    else none

/-- どの手も、store の一手か、続いている走査の batch である。 -/
theorem ListSys.step_cases {s s' : ListSys σ} {a : ListLabel}
    (hs : s.step cfg p range a = some s') :
    (∃ b t, a = .store b ∧ s.store.step cfg b = some t ∧ s' = { s with store := t }) ∨
    (∃ n, a = .batch n ∧ s.call.status = .running ∧ s' =
      { s with
        call := (s.call.batch (RecordCollector.processor p cfg) (indexRange range) n s.store.db).1
        snapshot := s.snapshot.or (some s.store) }) := by
  cases a with
  | store b =>
    obtain ⟨t, ht, rfl⟩ := Option.map_eq_some_iff.mp hs
    exact Or.inl ⟨b, t, rfl, ht, rfl⟩
  | batch n =>
    simp only [ListSys.step] at hs
    split at hs
    · next hrun => exact Or.inr ⟨n, rfl, hrun, (Option.some.inj hs).symm⟩
    · cases hs

/-- 走査がまだ読んでおらず、`firstRev` の時点で鍵の最新である record。 -/
def ListSys.Decides (prefix_ startKey : Key) (s : ListSys σ) (key : Key) (rev : Versionstamp) : Prop :=
  inListRange prefix_ startKey key = true ∧
    (∀ b ∈ s.call.beginKey, b < indexKey key rev) ∧
    versionstampToInt64 rev ≤ s.call.collector.firstRev ∧
    ∀ e ∈ s.store.db.byKeyAndRevision.entries, e.1.key = key →
      versionstampToInt64 e.1.rev ≤ s.call.collector.firstRev → e.1.rev ≤ rev

instance (s : ListSys σ) (key : Key) (rev : Versionstamp) :
    Decidable (s.Decides prefix_ startKey key rev) :=
  inferInstanceAs (Decidable (_ ∧ _ ∧ _ ∧ _))

/-- compaction の batch の手の前の条件。batch が読む record のうち、途中の走査の答えを決めるものは、
生きていればいまも鍵の最新である。tombstone なら、持ち越した候補は同じ鍵の生きた record ではなく、
鍵の古い生きた record も batch の始まる位置までに残っていない。 -/
def SparesScan (prefix_ startKey : Key) (s : ListSys σ) : ListLabel → Prop
  | .store (.compactBatch i n _ _) => s.snapshot.isSome = true → s.call.status = .running →
      ∀ x ∈ s.store.compacts[i]?,
      ∀ h ∈ (unreadHeaders x.1 s.store.db x.2.beginKey).take (n + 1),
        s.Decides prefix_ startKey h.2.key h.1 →
        (h.2.isDelete = false → ∀ last ∈ s.store.db.getLast h.2.key, last.rev = h.1) ∧
        (h.2.isDelete = true →
          (∀ c ∈ s.call.collector.currentRecord, c.key = h.2.key → c.record.isDelete = true) ∧
          ∀ e ∈ s.store.db.byKeyAndRevision.entries, e.1.key = h.2.key → e.1.rev < h.1 →
            e.2.isDelete = false → (∀ b ∈ s.call.beginKey, b < e.1) →
            ∀ b ∈ x.2.beginKey, b < headerKey e.1.rev)
  | _ => True

instance (s : ListSys σ) : (a : ListLabel) → Decidable (SparesScan prefix_ startKey s a)
  | .store (.compactBatch i n _ _) => inferInstanceAs (Decidable (_ → _ → ∀ x ∈ s.store.compacts[i]?,
      ∀ h ∈ (unreadHeaders x.1 s.store.db x.2.beginKey).take (n + 1),
        s.Decides prefix_ startKey h.2.key h.1 → _ ∧ _))
  | .store (.tick _) => .isTrue trivial
  | .store (.write _ _ _ _) => .isTrue trivial
  | .store (.startCompact _) => .isTrue trivial
  | .batch _ => .isTrue trivial

/-- `live` が、走査が返した revision の時点の store で見える範囲の record であること。 -/
structure SnapshotAnswer (cfg : Config) (prefix_ startKey : Key) (s : ListSys σ)
    (live : List RevRecord) : Prop where
  /-- 最初の batch が読んだ store と、その database が表す列。 -/
  taken : ∃ st recs, s.snapshot = some st ∧ st.db.Holds recs ∧
    s.call.collector.firstRev = st.db.getLatestRev cfg ∧
    -- `V` までに commit された record は、そこにすべて書かれている
    st.committed = s.store.committed.filter (fun r => upTo s.call.collector.firstRev r.rev) ∧
    ∀ r, r ∈ live ↔ LiveAt 0 recs r ∧ inListRange prefix_ startKey r.key = true
  sorted : SortedBy RevRecord.key live

/-! ## 途中の走査と一手 -/

/-- 手の前の条件から、列の上の条件を得る。 -/
theorem sparesRest_of_sparesScan {s : ListSys σ} {recs read rest : List RevRecord} {endRev : Int}
    {c : CompactCall} {begin_ : Option Versionstamp} {i n v : Nat} {known : Bool}
    (h : s.store.db.Holds recs) (hi : s.store.compacts[i]? = some (endRev, c))
    (hb : c.beginKey = begin_.map (chunkKey · maxInt64))
    (hscan : ScanInv spec (upTo s.call.collector.firstRev) s.call read)
    (hu : Unread recs s.store.committed (inListRange prefix_ startKey) read rest)
    (hsnap : s.snapshot.isSome = true)
    (hspare : SparesScan prefix_ startKey s (.store (.compactBatch i n v known))) :
    SparesRest s.call.collector.firstRev recs read rest (compactVisits recs begin_ endRev n)
      begin_ := by
  have hall : ∀ t ∈ rest, t ∈ compactVisits recs begin_ endRev n →
      upTo s.call.collector.firstRev t.rev = true →
      (∀ x ∈ recs, x.key = t.key → upTo s.call.collector.firstRev x.rev = true → x.rev ≤ t.rev) →
      (t.record.isDelete = false → ∀ last ∈ s.store.db.getLast t.key, last.rev = t.rev) ∧
      (t.record.isDelete = true →
        (∀ c ∈ s.call.collector.currentRecord, c.key = t.key → c.record.isDelete = true) ∧
        ∀ e ∈ s.store.db.byKeyAndRevision.entries, e.1.key = t.key → e.1.rev < t.rev →
          e.2.isDelete = false → (∀ b ∈ s.call.beginKey, b < e.1) →
          ∀ b ∈ c.beginKey, b < headerKey e.1.rev) := by
    intro t ht hvis htw hmax
    obtain ⟨-, hin, hafter⟩ := (hu.mem_rest t).mp ht
    refine hspare hsnap hscan.running (endRev, c) hi
      (t.rev, ByRevision.recordToTuple t.record) ?_ ⟨hin, ?_, of_decide_eq_true htw, ?_⟩
    · rw [hb, unreadHeaders_eq h, ← List.map_take]
      exact List.mem_map.mpr ⟨t, hvis, rfl⟩
    · rw [hscan.begin_]
      exact hafter
    · exact h.forall_index.mpr fun x hx hk hxw => hmax x hx hk (decide_eq_true hxw)
  refine ⟨fun t ht hvis htw hmax hd x hx hk => ?_, fun t ht hvis htw hmax hd c hc hk => ?_,
    fun t ht hvis htw hmax hd u hu' hk hlt hud b hbm => ?_⟩
  · have hnew := (getLast_rev_iff h ((hu.mem_rest t).mp ht).1).mp ((hall t ht hvis htw hmax).1 hd)
    exact ((newest_eq_some_iff h.sorted).mp hnew).2.2 x hx hk
  · refine ((hall t ht hvis htw hmax).2 hd).1 (mark c) ?_ hk
    rw [hscan.candidate, hc]
    rfl
  · obtain ⟨hur, -, hafter⟩ := (hu.mem_rest u).mp hu'
    have hlt' := h.forall_index.mp ((hall t ht hvis htw hmax).2 hd).2 u hur hk hlt hud
      (by rw [hscan.begin_]; exact hafter) (chunkKey b maxInt64) (by rw [hb, hbm]; rfl)
    exact (chunkKey_max_lt_iff (h.wf u hur).bound List.mem_cons_self).mp hlt'

/-- store の手は、途中の走査の答えを変えない。 -/
theorem Ongoing.effect {s s' : Store} {a : StoreLabel} {recs recs' answer read rest : List RevRecord}
    {inRange : Key → Bool} {V : Int} {call : ListCall σ} (h : s.Inv cfg recs)
    (he : Store.Effect cfg s recs a s' recs') (hV : V ≤ s.db.getLatestRev cfg)
    (ho : Ongoing spec inRange V answer recs s.committed read rest call)
    (hspare : ∀ {i n v known endRev c begin_}, a = .compactBatch i n v known →
      s.compacts[i]? = some (endRev, c) → c.beginKey = begin_.map (chunkKey · maxInt64) →
      SparesRest V recs read rest (compactVisits recs begin_ endRev n) begin_) :
    ∃ rest', Ongoing spec inRange V answer recs' s'.committed read rest' call := by
  have h' := h.effect he
  cases he with
  | idle _ ha v hv hv63 calls hcalls => exact ⟨rest, ho⟩
  | wrote op lastWriteUUID uuid v record size hc ht hw =>
    exact ho.write h'.tracks.holds h.tracks.sub
      (hV.trans_lt (incrementAndGet_spec h.bounded hc).2)
  | compacted i n v known endRev c c' db' begin_ hc hi hrun hb hbatch heq =>
    exact ho.compact h.tracks.holds.sorted hbatch.holds h.tracks.sub (hspare rfl hi hb)

/-- 後から commit された record は、`V` より新しい。 -/
theorem Store.Effect.committed_upTo {s s' : Store} {a : StoreLabel} {recs recs' : List RevRecord}
    {V : Int} (h : s.Inv cfg recs) (he : Store.Effect cfg s recs a s' recs')
    (hV : V ≤ s.db.getLatestRev cfg) :
    s'.committed.filter (fun r => upTo V r.rev) = s.committed.filter (fun r => upTo V r.rev) := by
  cases he with
  | idle _ ha v hv hv63 calls hcalls => rfl
  | wrote op lastWriteUUID uuid v record size hc ht hw =>
    have hnew : upTo V (append cfg v uuid record size s.db).1.rev = false :=
      decide_eq_false (not_le.mpr (hV.trans_lt (incrementAndGet_spec h.bounded hc).2))
    rw [List.filter_append, List.filter_singleton, hnew]
    exact List.append_nil _
  | compacted i n v known endRev c c' db' begin_ hc hi hrun hb hbatch heq => rfl

/-! ## 不変条件 -/

/-- 上限なしの走査の内側の collector。 -/
structure Unlimited (spec : InnerSpec p) : Prop where
  wants : ∀ k, spec.wants k = true
  ready : ∀ {db : Db} {recs hist : List RevRecord} (inRange : Key → Bool) (w : Versionstamp → Bool),
    db.Tracks recs hist → AlwaysReady spec db recs hist inRange w

/-- run の途中の走査。 -/
inductive ListSys.Phase (spec : InnerSpec p) (cfg : Config) (prefix_ startKey : Key) (inner : σ)
    (s : ListSys σ) (recs : List RevRecord) : Prop
  | fresh (hsnap : s.snapshot = none) (hcall : s.call = .start (newRecordCollector 0 inner))
  | begun (st : Store) (recs₀ all : List RevRecord) (hsnap : s.snapshot = some st)
      (h₀ : st.Inv cfg recs₀) (hall : RangeRecs recs₀ prefix_ startKey all)
      (hV : st.db.getLatestRev cfg ≤ s.store.db.getLatestRev cfg)
      (hist : st.committed = s.store.committed.filter (fun r => upTo (st.db.getLatestRev cfg) r.rev))
      (hout : BatchOutcome spec (inListRange prefix_ startKey) (st.db.getLatestRev cfg)
        (chosenOf (pinWindow 0) all) recs s.store.committed s.call)

/-- 走査は最初の batch で始まり、その時点の答えを作り続ける。 -/
theorem ListSys.phase_batch {s : ListSys σ} {recs : List RevRecord} {inner : σ}
    (hspec : Unlimited spec) (hinner : spec.Received inner [])
    (hr : listRange prefix_ startKey = .ok range) (h : s.store.Inv cfg recs)
    (hp : s.Phase spec cfg prefix_ startKey inner recs) (hrun : s.call.status = .running) (n : Nat) :
    ListSys.Phase spec cfg prefix_ startKey inner
      { s with
        call := (s.call.batch (RecordCollector.processor p cfg) (indexRange range) n s.store.db).1
        snapshot := s.snapshot.or (some s.store) } recs := by
  have hready := fun V => hspec.ready (inListRange prefix_ startKey) (upTo V) h.tracks
  cases hp with
  | fresh hsnap hcall =>
    obtain ⟨all, hall⟩ := exists_rangeRecs h.tracks.holds prefix_ startKey
    have hle : ∀ r ∈ recs, upTo (s.store.db.getLatestRev cfg) r.rev = true :=
      fun r hr => decide_eq_true (h.boundedRecs.le r hr)
    refine .begun s.store recs all (by rw [hsnap]; rfl) h hall le_rfl ?_ ?_
    · exact (List.filter_eq_self.mpr fun r hr => decide_eq_true (h.bounded.le r hr)).symm
    · -- 最初の batch の窓には、すべての record が入る
      have ho : Ongoing spec (inListRange prefix_ startKey) (s.store.db.getLatestRev cfg)
          (chosenOf (pinWindow 0) all) recs s.store.committed [] all s.call := by
        rw [hcall]
        refine ⟨scanInv_start _ 0 hinner, hall.unread h.tracks.sub, ?_⟩
        exact GroupScan.chosen_window_congr fun r hr =>
          (hle r ((hall.mem_iff r).mp hr).1).trans (by simp [pinWindow])
      refine ho.batch cfg h.tracks.holds hr (hready _) hspec.wants (by rw [hcall]; rfl) ?_
        (by rw [hcall]; rfl) n
      intro r hr
      rw [hle r hr, hcall]
      rfl
  | begun st recs₀ all hsnap h₀ hall hV hist hout =>
    refine .begun st recs₀ all (by rw [hsnap]; rfl) h₀ hall hV hist ?_
    cases hout with
    | running hmax hfirst read rest ho =>
      have hpos := h₀.bounded.pos
      refine ho.batch cfg h.tracks.holds hr (hready _) hspec.wants hmax ?_ ?_ n
      · intro r _
        simp [RecordCollector.inWindow, hmax, hfirst, upTo, hpos.ne']
      · rw [if_neg (by rw [hfirst]; exact hpos.ne'), hfirst]
    | done hdone hfirst picks hrec hans => rw [hdone] at hrun; cases hrun
    | failed e hfail => rw [hfail] at hrun; cases hrun

/-- store の手の後も、走査は同じ答えを作り続ける。 -/
theorem ListSys.phase_store {s : ListSys σ} {t : Store} {a : StoreLabel}
    {recs recs' : List RevRecord} {inner : σ} (h : s.store.Inv cfg recs)
    (hp : s.Phase spec cfg prefix_ startKey inner recs)
    (hok : SparesScan prefix_ startKey s (.store a))
    (he : Store.Effect cfg s.store recs a t recs') :
    ListSys.Phase spec cfg prefix_ startKey inner { s with store := t } recs' := by
  cases hp with
  | fresh hsnap hcall => exact .fresh hsnap hcall
  | begun st recs₀ all hsnap h₀ hall hV hist hout =>
    refine .begun st recs₀ all hsnap h₀ hall (hV.trans (he.latest_le h)) ?_ ?_
    · rw [hist]
      exact (he.committed_upTo h hV).symm
    · cases hout with
      | running hmax hfirst read rest ho =>
        obtain ⟨rest', ho'⟩ := ho.effect h he hV (fun ha hi hb => by
          subst ha
          rw [← hfirst]
          exact sparesRest_of_sparesScan h.tracks.holds hi hb (hfirst ▸ ho.scan) ho.unread
            (by rw [hsnap]; rfl) hok)
        exact .running hmax hfirst read rest' ho'
      | done hdone hfirst picks hrec hans => exact .done hdone hfirst picks hrec hans
      | failed e hfail => exact .failed e hfail

/-- **条件を満たす run では、走査は最初の batch の時点の答えを作る。** -/
theorem ListSys.run_phase {inner : σ} (hspec : Unlimited spec) (hinner : spec.Received inner [])
    (hr : listRange prefix_ startKey = .ok range) {as : List ListLabel} {s : ListSys σ}
    (hrun : runSteps (ListSys.step cfg p range) (.init inner) as = some s)
    (hok : StepsMeet (ListSys.step cfg p range) (SparesScan prefix_ startKey) (.init inner) as) :
    ∃ recs, s.store.Inv cfg recs ∧ s.Phase spec cfg prefix_ startKey inner recs := by
  refine run_invariant_of (SparesScan prefix_ startKey)
    (P := fun s => ∃ recs, s.store.Inv cfg recs ∧ s.Phase spec cfg prefix_ startKey inner recs)
    ?_ ⟨[], Store.init_inv cfg, .fresh rfl rfl⟩ hok hrun
  rintro s a s' ⟨recs, h, hp⟩ hok hs
  obtain ⟨b, t, rfl, ht, rfl⟩ | ⟨n, rfl, hrunning, rfl⟩ := ListSys.step_cases hs
  · obtain ⟨recs', he, h'⟩ := Store.inv_step h ht
    exact ⟨recs', h', ListSys.phase_store h hp hok he⟩
  · exact ⟨recs, h, ListSys.phase_batch hspec hinner hr h hp hrunning n⟩

/-- 終わった走査が渡した record。 -/
theorem ListSys.Phase.answer {s : ListSys σ} {recs : List RevRecord} {inner : σ}
    (hp : s.Phase spec cfg prefix_ startKey inner recs) (hdone : s.call.status = .done) :
    ∃ picks, spec.Received s.call.collector.inner picks ∧
      SnapshotAnswer cfg prefix_ startKey s (picks.map Prod.fst) ∧
      0 < s.call.collector.firstRev := by
  cases hp with
  | fresh hsnap hcall => rw [hcall] at hdone; cases hdone
  | begun st recs₀ all hsnap h₀ hall hV hist hout =>
    cases hout with
    | running hmax hfirst read rest ho => rw [ho.scan.running] at hdone; cases hdone
    | failed e hfail => rw [hfail] at hdone; cases hdone
    | done hdone hfirst picks hrec hans =>
      refine ⟨picks, hrec, ⟨⟨st, recs₀, hsnap, h₀.tracks.holds, hfirst, hfirst ▸ hist, ?_⟩, ?_⟩,
        hfirst ▸ h₀.bounded.pos⟩
      · intro r
        rw [hans, hall.mem_chosenOf]
      · rw [hans]
        exact GroupScan.chosen_sorted hall.ordered

theorem listResult_done {call : ListCall σ} (hdone : call.status = .done)
    (hpos : 0 < call.collector.firstRev) :
    listResult 0 call = .ok (call.collector.firstRev, call.collector.inner) := by
  unfold listResult
  simp only [hdone]
  rw [if_neg (not_lt.mpr hpos.le)]

/-! ## List と Count -/

theorem listSpec_unlimited (cfg : Config) (keysOnly : Bool) : Unlimited (listSpec cfg keysOnly 0) :=
  ⟨fun _ => rfl, fun inRange w htr => listSpec_ready htr keysOnly 0 inRange w⟩

theorem countSpec_unlimited : Unlimited countSpec :=
  ⟨fun _ => rfl, fun _ _ _ => ⟨fun _ _ => trivial, fun _ _ => trivial, fun _ _ _ => trivial⟩⟩

/-- pin しない上限なしの `List` と `Count` は、条件を満たす run では、どう batch に分かれても、返した
revision の時点の store で見える範囲の record をちょうど返す。 -/
theorem scan_is_snapshot (cfg : Config) (prefix_ startKey : Key) {range : Bytes × Bytes}
    (hr : listRange prefix_ startKey = .ok range) :
    (∀ (keysOnly : Bool) (as : List ListLabel) (s : ListSys ListCollector),
      runSteps (ListSys.step cfg listProcessor range) (.init (newListCollector 0 keysOnly)) as
        = some s →
      StepsMeet (ListSys.step cfg listProcessor range) (SparesScan prefix_ startKey)
        (.init (newListCollector 0 keysOnly)) as →
      s.call.status = .done →
      ∃ live, SnapshotAnswer cfg prefix_ startKey s live ∧
        (listResult 0 s.call).map (fun x => (x.1, toKeyValues cfg x.2.records))
          = .ok (s.call.collector.firstRev, live.map (fun r => kvOf cfg (r.listed keysOnly)))) ∧
    (∀ (as : List ListLabel) (s : ListSys CountCollector),
      runSteps (ListSys.step cfg countProcessor range) (.init ⟨0, 0⟩) as = some s →
      StepsMeet (ListSys.step cfg countProcessor range) (SparesScan prefix_ startKey)
        (.init ⟨0, 0⟩) as →
      s.call.status = .done →
      ∃ live, SnapshotAnswer cfg prefix_ startKey s live ∧
        (listResult 0 s.call).map (fun x => (x.1, x.2.totalCount))
          = .ok (s.call.collector.firstRev, live.length)) := by
  constructor
  · intro keysOnly as s hrun hok hdone
    obtain ⟨recs, -, hp⟩ := ListSys.run_phase (listSpec_unlimited cfg keysOnly)
      ⟨rfl, rfl, rfl, rfl⟩ hr hrun hok
    obtain ⟨picks, ⟨-, -, -, hrec⟩, hans, hpos⟩ := hp.answer hdone
    refine ⟨_, hans, ?_⟩
    rw [listResult_done hdone hpos, List.map_map]
    have hkvs : toKeyValues cfg s.call.collector.inner.records
        = picks.map (fun c => kvOf cfg (c.1.listed keysOnly)) := hrec
    show Except.ok (_, toKeyValues cfg s.call.collector.inner.records) = _
    rw [hkvs]
    rfl
  · intro as s hrun hok hdone
    obtain ⟨recs, -, hp⟩ := ListSys.run_phase countSpec_unlimited
      (show countSpec.Received ⟨0, 0⟩ [] from rfl) hr hrun hok
    obtain ⟨picks, hrec, hans, hpos⟩ := hp.answer hdone
    refine ⟨_, hans, ?_⟩
    rw [listResult_done hdone hpos, List.length_map]
    show Except.ok (_, s.call.collector.inner.totalCount) = _
    rw [show s.call.collector.inner.totalCount = picks.length from hrec]

/-- 二つの batch の間に、古い record だけを消す compaction と書き込みが挟まる `List`。 -/
def sparedRun : List ListLabel :=
  [.store (.write (.create [47, 97] [1] 0) 0 1 2), .store (.write (.create [47, 98] [2] 0) 0 2 3),
    .store (.write (.update [47, 98] [3] 3 0) 0 3 4), .batch 0, .store (.startCompact 4),
    .store (.compactBatch 0 5 5 true), .store (.write (.update [47, 98] [4] 4 0) 0 4 6), .batch 5]

theorem scan_is_snapshot_of_spared :
    ∃ range s, listRange [47] [47] = .ok range ∧
      runSteps (ListSys.step .default listProcessor range) (.init (newListCollector 0 false)) sparedRun
        = some s ∧
      ∃ live, SnapshotAnswer .default [47] [47] s live ∧
        (listResult 0 s.call).map (fun x => (x.1, toKeyValues .default x.2.records))
          = .ok (s.call.collector.firstRev, live.map (fun r => kvOf .default (r.listed false))) := by
  obtain ⟨range, hr⟩ := listRange_self [47]
  have hrange : range = ([2, 47, 0], [2, 48]) := Except.ok.inj (hr.symm.trans (by decide))
  have hok : StepsMeet (ListSys.step .default listProcessor ([2, 47, 0], [2, 48]))
      (SparesScan [47] [47]) (.init (newListCollector 0 false)) sparedRun := by decide +kernel
  have h : (runSteps (ListSys.step .default listProcessor ([2, 47, 0], [2, 48]))
      (.init (newListCollector 0 false)) sparedRun).any
        (fun s => decide (s.call.status = .done)) = true := by decide +kernel
  subst hrange
  obtain ⟨s, hs, h⟩ := exists_of_any_decide h
  exact ⟨_, s, hr, hs, (scan_is_snapshot .default [47] [47] hr).1 false _ s hs hok
    h⟩

/-- 見える索引の entry の鍵は、答えに現れる。 -/
theorem SnapshotAnswer.exists_mem {s : ListSys σ} {live : List RevRecord} {st : Store}
    (h : SnapshotAnswer cfg prefix_ startKey s live) (hsnap : s.snapshot = some st)
    {e : IndexKey × IndexTuple} (he : e ∈ st.db.byKeyAndRevision.entries)
    (hd : e.2.isDelete = false) (hin : inListRange prefix_ startKey e.1.key = true)
    (hmax : ∀ e' ∈ st.db.byKeyAndRevision.entries, e'.1.key = e.1.key → e'.1.rev ≤ e.1.rev) :
    ∃ r ∈ live, r.key = e.1.key := by
  obtain ⟨st', recs, hsnap', hh, -, -, hmem⟩ := h.taken
  obtain rfl : st = st' := Option.some.inj (hsnap.symm.trans hsnap')
  obtain ⟨r, hr, rfl⟩ := (hh.index e).mp he
  refine ⟨r, (hmem r).mpr ⟨⟨hr, by simp [pinWindow], ?_, fun r' hr' _ hk => ?_⟩, hin⟩, rfl⟩
  · simpa [RevRecord.live] using show r.record.isDelete = false from hd
  · exact hh.forall_index.mp hmax r' hr' hk

/-- 鍵 `/a` を読んだ後の batch の前に、`/b` が書き換えられて、元の record を compaction が消す。 -/
def overwrittenRun : List ListLabel :=
  [.store (.write (.create [47, 97] [1] 0) 0 1 2), .store (.write (.create [47, 98] [2] 0) 0 2 3),
    .batch 0, .store (.write (.update [47, 98] [3] 3 0) 0 3 4), .store (.startCompact 3),
    .store (.compactBatch 0 5 5 true), .batch 5]

/-- revision 3 の一覧に、そのとき見えていた `/b` がない。 -/
theorem list_misses_overwritten :
    ∃ s, runSteps (ListSys.step .default listProcessor ([2, 47, 0], [2, 48]))
        (.init (newListCollector 0 false)) overwrittenRun = some s ∧
      listRange [47] [47] = .ok ([2, 47, 0], [2, 48]) ∧ s.call.status = .done ∧
      (listResult 0 s.call).map (fun x => (x.1, toKeyValues .default x.2.records))
        = .ok (3, [⟨[47, 97], 2, 2, 0, [1]⟩]) ∧
      ¬ ∃ live, SnapshotAnswer .default [47] [47] s live ∧
        (listResult 0 s.call).map (fun x => (x.1, toKeyValues .default x.2.records))
          = .ok (s.call.collector.firstRev, live.map (fun r => kvOf .default (r.listed false))) := by
  have h : (runSteps (ListSys.step .default listProcessor ([2, 47, 0], [2, 48]))
      (.init (newListCollector 0 false)) overwrittenRun).any (fun s =>
        decide (s.call.status = .done ∧
          (listResult 0 s.call).map (fun x => (x.1, toKeyValues .default x.2.records))
            = .ok (3, [⟨[47, 97], 2, 2, 0, [1]⟩])) &&
        s.snapshot.any (fun st => st.db.byKeyAndRevision.entries.any (fun e =>
          decide (e.1.key = [47, 98] ∧ e.2.isDelete = false ∧
            ∀ e' ∈ st.db.byKeyAndRevision.entries, e'.1.key = e.1.key → e'.1.rev ≤ e.1.rev)))) = true := by
    decide +kernel
  obtain ⟨s, hs, h⟩ := (Option.any_eq_true _ _).mp h
  obtain ⟨h1, h2⟩ := Bool.and_eq_true_iff.mp h
  obtain ⟨hdone, hres⟩ := of_decide_eq_true h1
  obtain ⟨st, hsnap, h2⟩ := (Option.any_eq_true _ _).mp h2
  obtain ⟨e, he, h2⟩ := List.any_eq_true.mp h2
  obtain ⟨hk, hd, hmax⟩ := of_decide_eq_true h2
  refine ⟨s, hs, by decide, hdone, hres, ?_⟩
  rintro ⟨live, hans, heq⟩
  obtain ⟨r, hr, hrk⟩ := hans.exists_mem hsnap he hd (by rw [hk]; decide) hmax
  rw [hres] at heq
  have hkvs : [(⟨[47, 97], 2, 2, 0, [1]⟩ : KeyValue)]
      = live.map (fun r => kvOf .default (r.listed false)) := congrArg Prod.snd (Except.ok.inj heq)
  have hmem : kvOf .default (r.listed false) ∈ [(⟨[47, 97], 2, 2, 0, [1]⟩ : KeyValue)] := by
    rw [hkvs]
    exact List.mem_map_of_mem hr
  have hkey := congrArg KeyValue.key (List.mem_singleton.mp hmem)
  rw [show (kvOf .default (r.listed false)).key = r.key from rfl, hrk, hk] at hkey
  exact absurd hkey (by decide)

end KubeFdb
