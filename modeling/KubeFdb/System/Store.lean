import KubeFdb.Lib.Run
import KubeFdb.Properties.Write
import KubeFdb.Properties.CompactBatch
import KubeFdb.Properties.Current

/-!
# store の遷移系

一つの directory を複数の client と複数の `Compact` が同時に使う。手は次の四つである。

* `tick` — ほかの directory の commit で read version が進む
* `write` — 書き込みの transaction が一つ commit する
* `startCompact` — `Compact` が始まる
* `compactBatch` — 途中の `Compact` の batch が一つ commit する。結果が client に届かなければ
  （`commit_unknown_result`）、同じ batch がもう一度走る

`committed` は、これまでに commit された record をすべて持つ ghost である。

`Store.Inv` は、database が表す record の列 `recs` と `committed` の関係を述べる。
どの手も `Store.Effect` のどれかの形をしていて（`step_effect`）、`Inv` を保つ（`inv_step`）。
-/

namespace KubeFdb

open Tuple

structure Store where
  db : Db
  committed : List RevRecord
  /-- 始まった `Compact` の `endRev` と途中の状態。 -/
  compacts : List (Int × CompactCall)
deriving DecidableEq

def Store.init : Store := ⟨.empty, [], []⟩

inductive StoreLabel where
  | tick (v : Nat)
  | write (op : WriteOp) (lastWriteUUID uuid : UUID) (v : Nat)
  | startCompact (endRev : Int)
  | compactBatch (i n v : Nat) (known : Bool)
deriving DecidableEq

/-- 一手。version が戻る手や、走っていない `Compact` の batch は起きない。 -/
def Store.step (cfg : Config) (s : Store) : StoreLabel → Option Store
  | .tick v => if s.db.version ≤ v ∧ v < 2 ^ 63 then some { s with db := s.db.commit v } else none
  | .write op lastWriteUUID uuid v =>
    if s.db.CanCommit cfg v then
      match op.tx cfg lastWriteUUID uuid v s.db with
      | .error _ => some s
      | .ok out =>
        some { s with db := out.db.commit v, committed := s.committed ++ out.appended.toList }
    else none
  | .startCompact endRev =>
    if cfg.useSequentialId then some s
    else some { s with compacts := s.compacts ++ [(endRev, startCompact)] }
  | .compactBatch i n v known =>
    if s.db.CanCommit cfg v then
      match s.compacts[i]? with
      | none => none
      | some (endRev, c) =>
        if c.status = .running then
          let r := c.batch CompactProcessor.processor (compactRange endRev) n s.db
          some { s with
            db := r.2.commit v
            compacts := if known then s.compacts.set i (endRev, r.1) else s.compacts }
        else none
    else none

/-- client の書き込みと、ほかの directory の commit。 -/
def StoreLabel.isClient : StoreLabel → Bool
  | .tick _ => true
  | .write _ _ _ _ => true
  | .startCompact _ => false
  | .compactBatch _ _ _ _ => false

/-- 到達できる store。 -/
def Store.Reachable (cfg : Config) (s : Store) : Prop :=
  ∃ as : List StoreLabel, runSteps (Store.step cfg) Store.init as = some s

/-- 書き込みだけで到達できる store。 -/
def Store.Written (cfg : Config) (s : Store) : Prop :=
  ∃ as : List StoreLabel, (∀ a ∈ as, a.isClient = true) ∧
    runSteps (Store.step cfg) Store.init as = some s

/-! ## 不変条件 -/

structure Store.Inv (cfg : Config) (s : Store) (recs : List RevRecord) : Prop where
  tracks : s.db.Tracks recs s.committed
  bounded : s.db.Bounded cfg s.committed
  begins : ∀ c ∈ s.compacts, ∃ b : Option Versionstamp,
    c.2.beginKey = b.map (chunkKey · maxInt64)
  sequential : cfg.useSequentialId = true → s.compacts = []
  version : s.db.version < 2 ^ 63

variable {cfg : Config} {s s' : Store} {recs : List RevRecord}

theorem Store.Inv.boundedRecs (h : s.Inv cfg recs) : s.db.Bounded cfg recs :=
  ⟨fun r hr => h.bounded.le r (h.tracks.sub r hr), h.bounded.pos, h.bounded.lt⟩

theorem Store.init_inv (cfg : Config) : Store.init.Inv cfg [] where
  tracks :=
    { holds := Db.empty_holds
      sorted := SortedBy.nil
      wf := fun r hr => absurd hr List.not_mem_nil
      sub := fun r hr => hr
      lastLive := fun k r hn _ => absurd hn (by simp [Store.init])
      current := currentOf_empty [] }
  bounded := Db.empty_bounded cfg
  begins := fun c hc => absurd hc List.not_mem_nil
  sequential := fun _ => rfl
  version := by decide

/-! ## 一手の形 -/

/-- 手がすることのすべて。`recs` は手の前の、最後の引数は手の後の record の列である。 -/
inductive Store.Effect (cfg : Config) (s : Store) (recs : List RevRecord) :
    StoreLabel → Store → List RevRecord → Prop
  /-- record に触れない手。 -/
  | idle (a : StoreLabel) (ha : ∀ i n v known, a ≠ .compactBatch i n v known) (v : Nat)
      (hv : s.db.version ≤ v) (hv63 : v < 2 ^ 63)
      (calls : List (Int × CompactCall)) (hcalls : calls = s.compacts ∨
        (cfg.useSequentialId = false ∧ ∃ endRev, a = .startCompact endRev ∧
          calls = s.compacts ++ [(endRev, startCompact)])) :
    Effect cfg s recs a { s with db := s.db.commit v, compacts := calls } recs
  /-- record を一つ書いた。 -/
  | wrote (op : WriteOp) (lastWriteUUID uuid : UUID) (v : Nat) (record : Record) (size : Int)
      (hc : s.db.CanCommit cfg v) (ht : op.tooLarge = false)
      (hw : op.Writes (newest RevRecord.key recs op.key) record size) :
    Effect cfg s recs (.write op lastWriteUUID uuid v)
      { s with
        db := (append cfg v uuid record size s.db).2.commit v
        committed := s.committed ++ [(append cfg v uuid record size s.db).1] }
      (recs ++ [(append cfg v uuid record size s.db).1])
  /-- compaction の batch が一つ commit した。 -/
  | compacted (i n v : Nat) (known : Bool) (endRev : Int) (c c' : CompactCall) (db' : Db)
      (begin_ : Option Versionstamp) (hc : s.db.CanCommit cfg v)
      (hi : s.compacts[i]? = some (endRev, c)) (hrun : c.status = .running)
      (hb : c.beginKey = begin_.map (chunkKey · maxInt64))
      (hbatch : CompactBatch recs begin_ endRev n c s.db c' db')
      (heq : c.batch CompactProcessor.processor (compactRange endRev) n s.db = (c', db')) :
    Effect cfg s recs (.compactBatch i n v known)
      { s with
        db := db'.commit v
        compacts := if known then s.compacts.set i (endRev, c') else s.compacts }
      (compactRecs recs (compactVisits recs begin_ endRev n))

/-- どの手も `Effect` の形をしている。 -/
theorem Store.step_effect (h : s.Inv cfg recs) {a : StoreLabel} (hs : s.step cfg a = some s') :
    ∃ recs', Store.Effect cfg s recs a s' recs' := by
  have hsame : ∀ a : StoreLabel, (∀ i n v known, a ≠ .compactBatch i n v known) →
      Store.Effect cfg s recs a s recs := fun a ha =>
    .idle a ha s.db.version le_rfl h.version s.compacts (Or.inl rfl)
  cases a with
  | tick v =>
    simp only [Store.step] at hs
    split at hs
    · next hv =>
      cases hs
      exact ⟨recs, .idle _ (by simp) v hv.1 hv.2 s.compacts (Or.inl rfl)⟩
    · cases hs
  | write op lastWriteUUID uuid v =>
    simp only [Store.step] at hs
    split at hs
    · next hc =>
      have hcase := tx_cases cfg h.tracks.holds op lastWriteUUID uuid v
      have hro : { s with db := s.db.commit v, committed := s.committed ++ [] } =
          { s with db := s.db.commit v, compacts := s.compacts } := by
        rw [List.append_nil]
      generalize htx : op.tx cfg lastWriteUUID uuid v s.db = out at hcase hs
      cases hcase with
      | wrote record size result hw hsucc hn =>
        cases hs
        refine ⟨_, .wrote op lastWriteUUID uuid v record size hc ?_ hw⟩
        cases ht : op.tooLarge with
        | false => rfl
        | true => simp [WriteOp.tx, ht] at htx
      | recognised l result hl hr hsucc =>
        cases hs
        exact ⟨recs, hro ▸ .idle _ (by simp) v hc.1.le hc.2.1 s.compacts (Or.inl rfl)⟩
      | refused result hsucc hn =>
        cases hs
        exact ⟨recs, hro ▸ .idle _ (by simp) v hc.1.le hc.2.1 s.compacts (Or.inl rfl)⟩
      | keyExists hn => cases hs; exact ⟨recs, hsame _ (by simp)⟩
      | tooLarge ht => cases hs; exact ⟨recs, hsame _ (by simp)⟩
    · cases hs
  | startCompact endRev =>
    simp only [Store.step] at hs
    split at hs
    · cases hs; exact ⟨recs, hsame _ (by simp)⟩
    · next hm =>
      cases hs
      exact ⟨recs, .idle _ (by simp) s.db.version le_rfl h.version _
        (Or.inr ⟨by simpa using hm, endRev, rfl, rfl⟩)⟩
  | compactBatch i n v known =>
    simp only [Store.step] at hs
    split at hs
    · next hc =>
      split at hs
      · cases hs
      · next endRev c hi =>
        split at hs
        · next hrun =>
          cases hs
          obtain ⟨b, hb⟩ := h.begins _ (List.mem_of_getElem? hi)
          exact ⟨_, .compacted i n v known endRev c _ _ b hc hi hrun hb
            (compact_batch h.tracks.holds hb endRev n) rfl⟩
        · cases hs
    · cases hs

/-- 条件に合い、前の試行の record を認めない書き込みは、commit する。 -/
theorem Store.step_writes (h : s.Inv cfg recs) {op : WriteOp} {lastWriteUUID uuid : UUID} {v : Nat}
    {record : Record} {size : Int} (hc : s.db.CanCommit cfg v) (ht : op.tooLarge = false)
    (hw : op.Writes (newest RevRecord.key recs op.key) record size)
    (hn : ∀ l, newest RevRecord.key recs op.key = some l → ¬ op.Recognises l lastWriteUUID) :
    s.step cfg (.write op lastWriteUUID uuid v) = some
      { s with
        db := (append cfg v uuid record size s.db).2.commit v
        committed := s.committed ++ [(append cfg v uuid record size s.db).1] } := by
  have hans := tx_answer cfg h.tracks.holds ht lastWriteUUID uuid v
  simp only [Store.step, if_pos hc]
  generalize op.tx cfg lastWriteUUID uuid v s.db = out at hans
  cases hans with
  | wrote record' size' result hw' hn' hres =>
    obtain ⟨rfl, rfl⟩ := hw.unique hw'
    rfl
  | recognised l result hl hr hres => exact absurd hr (hn l hl)
  | refused result hn' hno hres => exact absurd hw (hno record size)
  | keyExists key value lease hop hn' hno => exact absurd hw (hno record size)

/-- 新しい鍵への書き込みは、認める record がない。 -/
theorem Store.step_writes_new (h : s.Inv cfg recs) {op : WriteOp} {lastWriteUUID uuid : UUID}
    {v : Nat} {record : Record} {size : Int} (hc : s.db.CanCommit cfg v) (ht : op.tooLarge = false)
    (hnew : ∀ r ∈ s.committed, r.key ≠ op.key) (hw : op.Writes none record size) :
    s.step cfg (.write op lastWriteUUID uuid v) = some
      { s with
        db := (append cfg v uuid record size s.db).2.commit v
        committed := s.committed ++ [(append cfg v uuid record size s.db).1] } := by
  have hnone : newest RevRecord.key recs op.key = none :=
    newest_eq_none_iff.mpr fun r hr => hnew r (h.tracks.sub r hr)
  exact Store.step_writes h hc ht (hnone ▸ hw) fun l hl => by cases hnone.symm.trans hl

/-! ## 不変条件の保存 -/

/-- log、索引、現在の値が同じなら、表すものも同じである。 -/
theorem Db.Tracks.congr {db db' : Db} {hist : List RevRecord} (h : db.Tracks recs hist)
    (hr : db'.byRevision = db.byRevision) (hi : db'.byKeyAndRevision = db.byKeyAndRevision)
    (hc : db'.byKeyCurrent = db.byKeyCurrent) : db'.Tracks recs hist :=
  ⟨h.holds.congr hr hi, h.sorted, h.wf, h.sub, h.lastLive, by rw [hc]; exact h.current⟩

/-- read version が進んでも、列は最新の revision を超えない。 -/
theorem Db.commit_bounded {db : Db} {l : List RevRecord} (h : db.Bounded cfg l) {v : Nat}
    (hv : db.version ≤ v) (hv63 : v < 2 ^ 63) : (db.commit v).Bounded cfg l := by
  obtain ⟨hle, hpos, hlt⟩ := h
  unfold Db.getLatestRev at hle hpos hlt
  cases hm : cfg.useSequentialId with
  | true =>
    simp only [hm, if_true] at hle hpos hlt
    refine ⟨fun r hr => ?_, ?_, ?_⟩ <;>
      simp only [Db.getLatestRev, Db.commit, hm, if_true]
    · exact hle r hr
    · exact hpos
    · exact hlt
  | false =>
    simp only [hm, Bool.false_eq_true, if_false] at hle hpos hlt
    refine ⟨fun r hr => ?_, ?_, ?_⟩ <;>
      simp only [Db.getLatestRev, Db.commit, hm, Bool.false_eq_true, if_false]
    · have := hle r hr
      omega
    · omega
    · omega

/-- 最新で生きている record は compaction の batch で消えない。 -/
theorem mem_compactRecs_of_newest {hist visited : List RevRecord}
    (hs : SortedBy RevRecord.rev hist) (hsub : ∀ r ∈ recs, r ∈ hist) {k : Key} {r : RevRecord}
    (hn : newest RevRecord.key hist k = some r) (hd : r.record.isDelete = false)
    (hr : r ∈ recs) : r ∈ compactRecs recs visited := by
  obtain ⟨-, hk, hmax⟩ := (newest_eq_some_iff hs).mp hn
  refine mem_compactRecs.mpr ⟨hr, ?_⟩
  rintro ⟨-, hdis⟩
  rcases discards_iff.mp hdis with ⟨r', hr', hk', hlt⟩ | hdel
  · exact absurd (hmax r' (hsub r' hr') (hk'.trans hk)) (not_le.mpr hlt)
  · exact absurd (hd.symm.trans hdel) (by decide)

/-- `append` の後の `byKeyCurrent`。 -/
theorem append_current {db : Db} {hist : List RevRecord} (h : db.Tracks recs hist) {op : WriteOp}
    {record : Record} {size : Int} (hw : op.Writes (newest RevRecord.key recs op.key) record size)
    (hlen : record.value.length ≤ maxRecordSize) (v : Nat) (uuid : UUID) :
    CurrentOf (hist ++ [(append cfg v uuid record size db).1])
      (append cfg v uuid record size db).2.byKeyCurrent := by
  rw [append_byKeyCurrent]
  cases hd : record.isDelete with
  | true =>
    rw [if_pos rfl]
    exact clear_current h.current (append cfg v uuid record size db).1
  | false =>
    rw [if_neg (by decide)]
    refine replace_current (r := (append cfg v uuid record size db).1) h.current h.wf hd hlen ?_
    intro r' hn hd'
    have hn' : newest RevRecord.key hist op.key = some r' := hw.key_eq ▸ hn
    have hlast := h.newest_eq hn' hd'
    generalize newest RevRecord.key recs op.key = last at hw hlast
    subst hlast
    cases hw with
    | createOver key value lease last hdel => exact absurd (hd'.symm.trans hdel) (by decide)
    | update key value revision lease last hdel hr =>
      rw [(h.wf r' (newest_mem hn).1).size]
    | delete key revision last hdel hr => cases hd

/-- `append` は履歴の末尾に record を足す。 -/
theorem append_tracks {db : Db} {hist : List RevRecord} (h : db.Tracks recs hist)
    (hb : db.Bounded cfg hist) {v : Nat} (hc : db.CanCommit cfg v) {op : WriteOp} {record : Record}
    {size : Int} (ht : op.tooLarge = false)
    (hw : op.Writes (newest RevRecord.key recs op.key) record size) (uuid : UUID) :
    (append cfg v uuid record size db).2.Tracks (recs ++ [(append cfg v uuid record size db).1])
      (hist ++ [(append cfg v uuid record size db).1]) := by
  have hwr := hw.writable ht (fun l hl => h.holds.wf l (newest_mem hl).1)
  have hbr : db.Bounded cfg recs := ⟨fun r hr => hb.le r (h.sub r hr), hb.pos, hb.lt⟩
  obtain ⟨hrev, hlt⟩ := incrementAndGet_spec hb hc
  refine ⟨append_holds h.holds hbr hc hwr, h.sorted.concat (fun r hr => ?_), ?_, ?_, ?_,
    append_current h hw hwr.bound v uuid⟩
  · exact ((h.wf r hr).rev.lt_iff hrev).mpr ((hb.le r hr).trans_lt hlt)
  · intro r hr
    rcases List.mem_append.mp hr with hr | hr
    · exact h.wf r hr
    · rw [List.mem_singleton.mp hr]
      exact ⟨hrev, hwr.size, hwr.bound, hwr.unmarked⟩
  · intro r hr
    rcases List.mem_append.mp hr with hr | hr
    · exact List.mem_append_left _ (h.sub r hr)
    · exact List.mem_append_right _ hr
  · intro k r hn hd
    rw [newest_concat] at hn
    split at hn
    · rw [← Option.some.inj hn]
      exact List.mem_append_right _ List.mem_cons_self
    · exact List.mem_append_left _ (h.lastLive k r hn hd)

/-- compaction の後も、履歴の一部を表す。 -/
theorem Compacted.tracks {db db' : Db} {hist visited : List RevRecord} (h : db.Tracks recs hist)
    (hb : Compacted recs visited db db') : db'.Tracks (compactRecs recs visited) hist where
  holds := hb.holds
  sorted := h.sorted
  wf := h.wf
  sub := fun r hr => h.sub r (mem_compactRecs.mp hr).1
  lastLive := fun k r hn hd => mem_compactRecs_of_newest h.sorted h.sub hn hd (h.lastLive k r hn hd)
  current := by rw [hb.byKeyCurrent]; exact h.current

theorem Compacted.bounded {db db' : Db} {hist visited : List RevRecord} (h : db.Bounded cfg hist)
    (hb : Compacted recs visited db db') : db'.Bounded cfg hist := by
  have hl : db'.getLatestRev cfg = db.getLatestRev cfg := by
    unfold Db.getLatestRev
    rw [hb.version, hb.latestRev]
  exact ⟨fun r hr => hl ▸ h.le r hr, hl ▸ h.pos, hl ▸ h.lt⟩

/-- batch の後の `Compact` の列。結果が届かなければ、元の位置のままである。 -/
theorem mem_compacts_cases {compacts : List (Int × CompactCall)} {i : Nat} {known : Bool}
    {x y : Int × CompactCall} (hx : x ∈ if known then compacts.set i y else compacts) :
    x ∈ compacts ∨ x = y := by
  cases known with
  | true => exact List.mem_or_eq_of_mem_set hx
  | false => exact Or.inl hx

/-- 手は不変条件を保つ。 -/
theorem Store.Inv.effect (h : s.Inv cfg recs) {a : StoreLabel} {recs' : List RevRecord}
    (he : Store.Effect cfg s recs a s' recs') : s'.Inv cfg recs' := by
  cases he with
  | idle _ ha v hv hv63 calls hcalls =>
    refine ⟨h.tracks.congr rfl rfl rfl, Db.commit_bounded h.bounded hv hv63, ?_, ?_, hv63⟩
    · rcases hcalls with rfl | ⟨-, endRev, -, rfl⟩
      · exact h.begins
      · intro c hc
        rcases List.mem_append.mp hc with hc | hc
        · exact h.begins c hc
        · rw [List.mem_singleton.mp hc]
          exact ⟨none, rfl⟩
    · intro hm
      rcases hcalls with rfl | ⟨hm', -⟩
      · exact h.sequential hm
      · exact absurd (hm.symm.trans hm') (by decide)
  | wrote op lastWriteUUID uuid v record size hc ht hw =>
    exact ⟨(append_tracks h.tracks h.bounded hc ht hw uuid).congr rfl rfl rfl,
      append_bounded h.bounded hc, h.begins, h.sequential, hc.2.1⟩
  | compacted i n v known endRev c c' db' begin_ hc hi hrun hb hbatch heq =>
    refine ⟨(hbatch.toCompacted.tracks h.tracks).congr rfl rfl rfl,
      Db.commit_bounded (hbatch.toCompacted.bounded h.bounded) (by rw [hbatch.version]; exact hc.1.le) hc.2.1,
      ?_, ?_, hc.2.1⟩
    · intro x hx
      rcases mem_compacts_cases hx with hx | rfl
      · exact h.begins x hx
      · by_cases hn : n < (compactTodo recs begin_ endRev).length
        · exact ⟨_, (hbatch.running hn).2⟩
        · exact ⟨begin_, (hbatch.done (not_lt.mp hn)).2.trans hb⟩
    · intro hm
      rw [h.sequential hm] at hi
      cases hi

/-- 最新の revision は戻らない。 -/
theorem Store.Effect.latest_le (h : s.Inv cfg recs) {a : StoreLabel} {recs' : List RevRecord}
    (he : Store.Effect cfg s recs a s' recs') : s.db.getLatestRev cfg ≤ s'.db.getLatestRev cfg := by
  have hcommit : ∀ {db : Db} {v : Nat}, db.version ≤ v →
      db.getLatestRev cfg ≤ (db.commit v).getLatestRev cfg := by
    intro db v hv
    unfold Db.getLatestRev Db.commit
    split
    · exact le_rfl
    · exact Int.ofNat_le.mpr hv
  cases he with
  | idle _ ha v hv hv63 calls hcalls => exact hcommit hv
  | wrote op lastWriteUUID uuid v record size hc ht hw =>
    have hb : ((append cfg v uuid record size s.db).2.commit v).Bounded cfg
        (s.committed ++ [(append cfg v uuid record size s.db).1]) := append_bounded h.bounded hc
    exact (incrementAndGet_spec h.bounded hc).2.le.trans
      (hb.le _ (List.mem_append_right _ List.mem_cons_self))
  | compacted i n v known endRev c c' db' begin_ hc hi hrun hb hbatch heq =>
    have hsame : db'.getLatestRev cfg = s.db.getLatestRev cfg := by
      unfold Db.getLatestRev
      rw [hbatch.version, hbatch.latestRev]
    exact hsame ▸ hcommit (hbatch.version ▸ hc.1.le)

theorem Store.inv_step (h : s.Inv cfg recs) {a : StoreLabel} (hs : s.step cfg a = some s') :
    ∃ recs', Store.Effect cfg s recs a s' recs' ∧ s'.Inv cfg recs' := by
  obtain ⟨recs', he⟩ := Store.step_effect h hs
  exact ⟨recs', he, h.effect he⟩

theorem Store.Effect.committed_isPrefix {a : StoreLabel} {recs' : List RevRecord}
    (he : Store.Effect cfg s recs a s' recs') : s.committed <+: s'.committed := by
  cases he with
  | idle _ _ v hv hv63 calls hcalls => exact List.prefix_rfl
  | wrote op lastWriteUUID uuid v record size hcan ht hw => exact List.prefix_append _ _
  | compacted i n v known endRev c c' db' begin_ hcan hi hrun hb hbatch heq => exact List.prefix_rfl

/-- run は不変条件を保ち、commit された record を失わない。 -/
theorem Store.Inv.run (h : s.Inv cfg recs) {as : List StoreLabel}
    (hr : runSteps (Store.step cfg) s as = some s') :
    ∃ recs', s'.Inv cfg recs' ∧ s.committed <+: s'.committed := by
  refine run_invariant (P := fun t => ∃ recs', Store.Inv cfg t recs' ∧ s.committed <+: t.committed)
    ?_ ⟨recs, h, List.prefix_rfl⟩ hr
  rintro t a t' ⟨recs', h', hp⟩ hs
  obtain ⟨recs'', he, h''⟩ := Store.inv_step h' hs
  exact ⟨recs'', h'', hp.trans he.committed_isPrefix⟩

/-- 到達できる store は不変条件を満たす。 -/
theorem Store.Reachable.inv (h : s.Reachable cfg) : ∃ recs, s.Inv cfg recs := by
  obtain ⟨as, hr⟩ := h
  obtain ⟨recs, hi, -⟩ := (Store.init_inv cfg).run hr
  exact ⟨recs, hi⟩

/-- client の手の後も、commit された record がすべて残る。 -/
theorem Store.Effect.committed_eq {a : StoreLabel} {recs' : List RevRecord}
    (ha : a.isClient = true) (he : Store.Effect cfg s s.committed a s' recs') :
    recs' = s'.committed := by
  cases he with
  | idle _ _ v hv hv63 calls hcalls => rfl
  | wrote op lastWriteUUID uuid v record size hcan ht hw => rfl
  | compacted i n v known endRev c c' db' begin_ hcan hi hrun hb hbatch heq => cases ha

/-- 書き込みだけで到達した store には、commit された record がすべて残っている。 -/
theorem Store.Written.inv (h : s.Written cfg) :
    s.Inv cfg s.committed ∧ s.db.compactRev = none := by
  obtain ⟨as, hclient, hr⟩ := h
  refine run_invariant_of (fun _ a => a.isClient = true)
    (P := fun s => Store.Inv cfg s s.committed ∧ s.db.compactRev = none) ?_
    ⟨Store.init_inv cfg, rfl⟩ (stepsMeet_of_forall hclient) hr
  rintro s a s' ⟨h, hrev⟩ hc hs
  obtain ⟨recs', he, h'⟩ := Store.inv_step h hs
  cases he with
  | idle _ ha v hv hv63 calls hcalls => exact ⟨h', hrev⟩
  | wrote op lastWriteUUID uuid v record size hcan ht hw =>
    refine ⟨h', ?_⟩
    show (append cfg v uuid record size s.db).2.compactRev = none
    rw [append_compactRev]
    exact hrev
  | compacted i n v known endRev c c' db' begin_ hcan hi hrun hb hbatch heq => cases hc

end KubeFdb
