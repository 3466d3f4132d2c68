import KubeFdb.System.SnapshotScan

/-!
# 一覧が返す値

`listCollector.endBatch` は、record の値を `byKeyCurrent` との merge-join で埋め、足りなければ log から読む
（`fetchLegacy`）。どちらで埋めても、値は `byRevision` がその record の revision に持つ値である
（`list_values_stored`）。

batch の間に書き込みが挟まり、鍵のどれかに chunk がなくても変わらない。印の立った record は、その batch の
snapshot で鍵の最新であり（`Fillable`）、`byKeyCurrent` の鍵の chunk は、ないか、最新の record の値をちょうど
持つ（`CurrentOf`）からである。
-/

namespace KubeFdb

open Tuple

/-! ## chunk の欠けた store -/

/-- 鍵 `k` の chunk を、`q k` のときだけ残した store。 -/
def Store.dropChunks (s : Store) (q : Key → Bool) : Store :=
  { s with db := { s.db with byKeyCurrent := s.db.byKeyCurrent.filter (fun k => q k.key) } }

theorem CurrentOf.filter {hist : List RevRecord} {m : OrdMap ChunkKey Bytes} (h : CurrentOf hist m)
    (q : Key → Bool) : CurrentOf hist (m.filter (fun k => q k.key)) := by
  intro k
  have hmem : ∀ o b, (currentKey k o, b) ∈ (m.filter (fun k => q k.key)).entries ↔
      (currentKey k o, b) ∈ m.entries ∧ q k = true := fun o b => OrdMap.mem_filter
  cases hq : q k with
  | false => exact Or.inl fun o b hm => absurd ((hmem o b).mp hm).2 (by rw [hq]; decide)
  | true =>
    refine (h k).imp (fun hno o b hm => hno o b ((hmem o b).mp hm).1) ?_
    rintro ⟨r, hn, hd, hc⟩
    exact ⟨r, hn, hd, fun o b => ((hmem o b).trans (and_iff_left hq)).trans (hc o b)⟩

variable {cfg : Config} {db : Db} {recs hist read rest : List RevRecord} {prefix_ startKey : Key}
  {range : Bytes × Bytes}

theorem Store.Inv.dropChunks {s : Store} (h : s.Inv cfg recs) (q : Key → Bool) :
    (s.dropChunks q).Inv cfg recs where
  tracks :=
    { holds := h.tracks.holds.congr rfl rfl
      sorted := h.tracks.sorted
      wf := h.tracks.wf
      sub := h.tracks.sub
      lastLive := h.tracks.lastLive
      current := h.tracks.current.filter q }
  bounded := ⟨h.bounded.le, h.bounded.pos, h.bounded.lt⟩
  begins := h.begins
  sequential := h.sequential
  version := h.version

/-! ## 途中の一覧 -/

/-- pin した revision と、最初の batch の revision の窓。 -/
def pinUpTo (R V : Int) (rev : Versionstamp) : Bool := pinWindow R rev && upTo V rev

theorem valueSpec_ready (htr : db.Tracks recs hist) (inRange : Key → Bool)
    (w : Versionstamp → Bool) : AlwaysReady (valueSpec cfg) db recs hist inRange w where
  mid hu hem := ⟨recs, hist, htr, hu.fillable_emitted hem⟩
  last hu hem := ⟨recs, hist, htr, hu.fillable_finish hem⟩
  sated _ hw _ := by cases hw

/-- 終わった一覧の record が、いまもある record の値で埋まっていること。 -/
def EndedFilled (cfg : Config) (recs : List RevRecord) (call : ListCall ListCollector) : Prop :=
  call.status ≠ .running ∧ ∃ picks, (valueSpec cfg).Received call.collector.inner picks ∧
    ∀ c ∈ picks, c.1 ∈ recs

/-- 一つの batch は、読み進めるか、値を埋めて終わる。 -/
theorem list_batch_filled {w : Versionstamp → Bool} {call : ListCall ListCollector}
    (htr : db.Tracks recs hist) (hr : listRange prefix_ startKey = .ok range)
    (hscan : ScanInv (valueSpec cfg) w call read)
    (hu : Unread recs hist (inListRange prefix_ startKey) read rest) (hread : ∀ r ∈ read, r ∈ recs)
    (hw : ∀ r ∈ recs, call.collector.inWindow r.rev = w r.rev) (n : Nat) {call' : ListCall ListCollector}
    (hcall' : call' = (call.batch (RecordCollector.processor listProcessor cfg) (indexRange range)
      n db).1) :
    (Advanced cfg db call call' ∧ ∃ read' rest', ScanInv (valueSpec cfg) w call' read' ∧
      Unread recs hist (inListRange prefix_ startKey) read' rest' ∧ ∀ r ∈ read', r ∈ recs) ∨
    EndedFilled cfg recs call' := by
  have hall := hu.mem_recs hread
  obtain ⟨-, hbatch⟩ := hu.batch cfg htr.holds hr hscan (valueSpec_ready htr _ w) hw n
  rw [← hcall'] at hbatch
  cases hbatch with
  | continued hn hadv hinv _ =>
    exact Or.inl ⟨hadv, _, _, hinv, hu.advance (n + 1), fun r hm => hall r (mem_append_take hm)⟩
  | finished hn hadv hdone hrec _ =>
    refine Or.inr ⟨by rw [hdone]; decide, _, hrec, fun c hc => hall _ ?_⟩
    rw [← List.take_length (l := rest)] at hc
    exact hu.mem_of_picks (Or.inr rfl) c hc
  | sated m hm hadv hdone hne hwant hrec _ => cases hwant
  | compacted hfail hc picks hrec m hm hpicks =>
    exact Or.inr ⟨by rw [hfail]; decide, picks, hrec, fun c hc => hall _ (hu.mem_of_picks hpicks c hc)⟩
  | broken e hfail inner inner' now hin hend m hm hnow =>
    exact absurd hend (list_noBreak htr.holds hin.2 (hu.sorted_of_picks hnow)
      fun c hc => hall _ (hu.mem_of_picks hnow c (List.mem_append_right _ hc)))

/-- run の途中の一覧。`V` は最初の batch の revision である。 -/
inductive ListSys.Filling (cfg : Config) (prefix_ startKey : Key) (R : Int) (s : ListSys ListCollector)
    (recs : List RevRecord) : Prop
  | fresh (hcall : s.call = .start (newRecordCollector R (newListCollector 0 false)))
  | reading (V : Int) (hV : 0 < V) (hmax : s.call.collector.maxRevision = R)
      (hfirst : s.call.collector.firstRev = V) (read rest : List RevRecord)
      (hscan : ScanInv (valueSpec cfg) (pinUpTo R V) s.call read)
      (hu : Unread recs s.store.committed (inListRange prefix_ startKey) read rest)
      (hread : ∀ r ∈ read, r ∈ recs)
  | ended (h : EndedFilled cfg recs s.call)

variable {R : Int} {s : ListSys ListCollector}

theorem ListSys.filling_batch (hr : listRange prefix_ startKey = .ok range)
    (h : s.store.Inv cfg recs) (hf : s.Filling cfg prefix_ startKey R recs)
    (hrun : s.call.status = .running) (n : Nat) :
    ListSys.Filling cfg prefix_ startKey R
      { s with
        call := (s.call.batch (RecordCollector.processor listProcessor cfg) (indexRange range) n
          s.store.db).1
        snapshot := s.snapshot.or (some s.store) } recs := by
  cases hf with
  | fresh hcall =>
    obtain ⟨all, hall⟩ := exists_rangeRecs h.tracks.holds prefix_ startKey
    have hscan : ScanInv (valueSpec cfg) (pinUpTo R (s.store.db.getLatestRev cfg)) s.call [] := by
      rw [hcall]
      exact scanInv_start _ R ⟨rfl, rfl, .nil⟩
    -- 最初の batch は `firstRev` で絞らないが、record はどれも `V` 以前である
    have hw : ∀ r ∈ recs, s.call.collector.inWindow r.rev
        = pinUpTo R (s.store.db.getLatestRev cfg) r.rev := by
      intro r hr
      have hle : upTo (s.store.db.getLatestRev cfg) r.rev = true :=
        decide_eq_true (h.boundedRecs.le r hr)
      rw [hcall, pinUpTo, hle]
      rfl
    rcases list_batch_filled h.tracks hr hscan (hall.unread h.tracks.sub)
      (fun _ hm => absurd hm List.not_mem_nil) hw n rfl with ⟨hadv, read, rest, hscan', hu, hread⟩ | he
    · refine .reading (s.store.db.getLatestRev cfg) h.bounded.pos ?_ ?_ read rest hscan' hu hread
      · exact hadv.maxRevision.trans (by rw [hcall]; rfl)
      · exact hadv.firstRev.trans (by rw [hcall]; rfl)
    · exact .ended he
  | reading V hV hmax hfirst read rest hscan hu hread =>
    have hw : ∀ r ∈ recs, s.call.collector.inWindow r.rev = pinUpTo R V r.rev := by
      intro r _
      simp [RecordCollector.inWindow, hmax, hfirst, pinUpTo, pinWindow, upTo, hV.ne']
    rcases list_batch_filled h.tracks hr hscan hu hread hw n rfl with
      ⟨hadv, read', rest', hscan', hu', hread'⟩ | he
    · refine .reading V hV (hadv.maxRevision.trans hmax) ?_ read' rest' hscan' hu' hread'
      exact hadv.firstRev.trans (by rw [hfirst, if_neg hV.ne'])
    · exact .ended he
  | ended he => exact absurd hrun he.1

/-- 書き込みは record を消さない。 -/
theorem ListSys.filling_store {t : Store} {a : StoreLabel} {recs' : List RevRecord}
    (h : s.store.Inv cfg recs) (hf : s.Filling cfg prefix_ startKey R recs)
    (ha : a.isClient = true) (he : Store.Effect cfg s.store recs a t recs') :
    ListSys.Filling cfg prefix_ startKey R { s with store := t } recs' := by
  have h' := h.effect he
  have hsub : ∀ r ∈ recs, r ∈ recs' := by
    cases he with
    | idle _ _ v hv hv63 calls hcalls => exact fun r hr => hr
    | wrote op lastWriteUUID uuid v record size hc ht hw => exact fun r => List.mem_append_left _
    | compacted i n v known endRev c c' db' begin_ hc hi hrun hb hbatch heq => cases ha
  cases hf with
  | fresh hcall => exact .fresh hcall
  | reading V hV hmax hfirst read rest hscan hu hread =>
    have hread' : ∀ r ∈ read, r ∈ recs' := fun r hr => hsub r (hread r hr)
    obtain ⟨rest', hu'⟩ :
        ∃ rest', Unread recs' t.committed (inListRange prefix_ startKey) read rest' :=
      exists_unread h'.tracks.holds hu.ordered_read hu.inRange h'.tracks.sub
        (fun r hr => h'.tracks.sub r (hread' r hr))
    exact .reading V hV hmax hfirst read rest' hscan hu' hread'
  | ended he => exact .ended ⟨he.1, he.2.imp fun picks hp => ⟨hp.1, fun c hc => hsub _ (hp.2 c hc)⟩⟩

/-- 途中でも終わった後でも、集めた record は、いまもある record の値で埋まっている。 -/
theorem ListSys.Filling.filled (hf : s.Filling cfg prefix_ startKey R recs) :
    ∀ out ∈ s.call.collector.inner.records, ∃ r ∈ recs, Filled cfg r out := by
  obtain ⟨picks, ⟨-, -, hrec⟩, hpicks⟩ : ∃ picks,
      (valueSpec cfg).Received s.call.collector.inner picks ∧ ∀ c ∈ picks, c.1 ∈ recs := by
    cases hf with
    | fresh hcall =>
      refine ⟨[], ?_, fun c hc => absurd hc List.not_mem_nil⟩
      rw [hcall]
      exact ⟨rfl, rfl, .nil⟩
    | reading V hV hmax hfirst read rest hscan hu hread =>
      refine ⟨_, hscan.received, fun c hc => ?_⟩
      have hc' : c ∈ (scanOf (pinUpTo R V) (read ++ rest.take 0)).emitted := by
        rwa [List.take_zero, List.append_nil]
      exact hu.mem_recs hread _ (hu.mem_of_picks (Or.inl rfl) c hc')
    | ended he => exact he.2
  intro out hout
  obtain ⟨i, hi, rfl⟩ := List.getElem_of_mem hout
  have hi' : i < picks.length := hrec.length_eq ▸ hi
  exact ⟨picks[i].1, hpicks _ (List.getElem_mem hi'), hrec.get hi' hi⟩

/-! ## 一覧の値 -/

/-- 一覧の batch か、`Create` `Update` `Delete` の transaction（と、ほかの directory の commit）。 -/
def ListLabel.isClient : ListLabel → Bool
  | .store a => a.isClient
  | .batch _ => true

/-- 到達できるどの store からも、鍵の chunk がいくつ欠けていても、pin した `List` もしない `List` も、どう
batch に分かれてどんな書き込みが挟まっても、集めた record の値は `byRevision` がその revision に持つ値である。 -/
theorem list_values_stored (cfg : Config) {s₀ : Store} (h₀ : s₀.Reachable cfg) (q : Key → Bool)
    {prefix_ startKey : Key} {range : Bytes × Bytes} (hr : listRange prefix_ startKey = .ok range)
    (R : Int) {as : List ListLabel} (hclient : ∀ a ∈ as, a.isClient = true)
    {s : ListSys ListCollector}
    (hrun : runSteps (ListSys.step cfg listProcessor range)
      ⟨s₀.dropChunks q, .start (newRecordCollector R (newListCollector 0 false)), none⟩ as = some s) :
    ∀ out ∈ s.call.collector.inner.records, ∃ record,
      ByRevision.get s.store.db.byRevision out.rev = .ok (some record) ∧
      out.record.value = record.value := by
  have hrun' := run_invariant_of (fun _ a => a.isClient = true)
    (P := fun s : ListSys ListCollector => ∃ recs, s.store.Inv cfg recs ∧
      s.Filling cfg prefix_ startKey R recs)
    ?_ ?_ (stepsMeet_of_forall hclient) hrun
  · obtain ⟨recs, h, hf⟩ := hrun'
    intro out hout
    obtain ⟨r, hmem, hfill⟩ := hf.filled out hout
    refine ⟨r.stored.record, ?_, hfill.value⟩
    rw [hfill.rev]
    exact get_eq h.tracks.holds hmem
  · rintro s a s' ⟨recs, h, hf⟩ ha hs
    obtain ⟨b, t, rfl, ht, rfl⟩ | ⟨n, rfl, hrunning, rfl⟩ := ListSys.step_cases hs
    · obtain ⟨recs', he, h'⟩ := Store.inv_step h ht
      exact ⟨recs', h', ListSys.filling_store h hf ha he⟩
    · exact ⟨recs, h, ListSys.filling_batch hr h hf hrunning n⟩
  · obtain ⟨recs, h⟩ := h₀.inv
    exact ⟨recs, h.dropChunks q, .fresh rfl⟩

/-- compaction の後の store。`/a` の chunk は残り、`/b` の chunk は落とす。 -/
def compactedWrites : List StoreLabel :=
  [.write (.create [47, 97] [1] 0) 0 1 2, .write (.create [47, 98] [2] 0) 0 2 3,
    .write (.update [47, 98] [3] 3 0) 0 3 4, .startCompact 4, .compactBatch 0 5 5 true,
    .write (.create [47, 99] [4] 0) 0 4 6]

/-- 一つ目の batch の後で `/b` と `/c` が書き換えられる、pin した `List`。 -/
def interruptedList : List ListLabel :=
  [.batch 0, .store (.write (.update [47, 98] [5] 4 0) 0 5 7),
    .store (.write (.delete [47, 99] 6) 0 6 8), .batch 5]

theorem list_values_stored_of_interrupted :
    ∃ range, ∃ s₀ : Store, ∃ s, listRange [47] [47] = .ok range ∧ s₀.Reachable .default ∧
      runSteps (ListSys.step .default listProcessor range)
        ⟨s₀.dropChunks (fun k => k = [47, 97]),
          .start (newRecordCollector 6 (newListCollector 0 false)), none⟩ interruptedList = some s ∧
      s.call.collector.inner.records.length = 3 ∧
      ∀ out ∈ s.call.collector.inner.records, ∃ record,
        ByRevision.get s.store.db.byRevision out.rev = .ok (some record) ∧
        out.record.value = record.value := by
  obtain ⟨range, hr⟩ := listRange_self [47]
  have hrange : range = ([2, 47, 0], [2, 48]) := Except.ok.inj (hr.symm.trans (by decide))
  have h : (runSteps (Store.step .default) Store.init compactedWrites).any (fun s₀ =>
      (runSteps (ListSys.step .default listProcessor ([2, 47, 0], [2, 48]))
        ⟨s₀.dropChunks (fun k => k = [47, 97]),
          .start (newRecordCollector 6 (newListCollector 0 false)), none⟩ interruptedList).any
        (fun s => decide (s.call.collector.inner.records.length = 3))) = true := by decide +kernel
  subst hrange
  obtain ⟨s₀, hs₀, h⟩ := (Option.any_eq_true _ _).mp h
  obtain ⟨s, hs, h⟩ := exists_of_any_decide h
  exact ⟨_, s₀, s, hr, ⟨_, hs₀⟩, hs, h,
    list_values_stored .default ⟨_, hs₀⟩ _ hr 6 (by decide) hs⟩

end KubeFdb
