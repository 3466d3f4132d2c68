import KubeFdb.Lib.GroupScan
import KubeFdb.Properties.Current

/-!
# 索引の走査

`recordCollector` は `GroupScan` の走査を、索引の entry を順に読みながら行う。走査は batch に
分かれ、batch ごとに別の snapshot を読む。ここでは batch 一つがすることを、それまでに読んだ
record の列 `read` について述べる（`scan_batch`）。

選ばれた record を受け取る内側の collector は `InnerSpec` で抽象化する。

* `listSpec` — `listCollector`
* `countSpec` — `countCollector`
-/

namespace KubeFdb

open Tuple

/-- 走査が選んだ record の列。 -/
abbrev Picks := List (RevRecord × Bool)

/-- record の列 `read` を読んだ走査の状態。`w` は revision の窓である。 -/
def scanOf (w : Versionstamp → Bool) (read : List RevRecord) : GroupScan.State RevRecord :=
  GroupScan.scan RevRecord.key (fun r => w r.rev) RevRecord.live read

/-- 索引の並び順。 -/
abbrev IndexOrdered (l : List RevRecord) : Prop := GroupScan.Ordered RevRecord.key RevRecord.rev l

/-! ## 内側の collector -/

/-- 内側の collector が、渡された record をどう受け取るか。 -/
structure InnerSpec {σ : Type} (p : InnerProcessor σ) where
  /-- 受け取った数に対し、まだ欲しいかどうか。 -/
  wants : Nat → Bool
  /-- batch の外で、`done` を受け取り終えていること。 -/
  Received : σ → (done : Picks) → Prop
  /-- batch の中で、`done` に加えて `now` を受け取ったこと。 -/
  InBatch : σ → (done now : Picks) → Prop
  /-- batch の終わりに、受け取ったものが正しく仕上がる条件。 -/
  Ready : Db → (done now : Picks) → Prop
  start : ∀ {s done}, Received s done → InBatch (p.startBatch s) done []
  next : ∀ {s done now} (c : RevRecord × Bool), InBatch s done now →
    InBatch (p.next s (mark c)).1 done (now ++ [c]) ∧
      (p.next s (mark c)).2 = wants (done.length + (now.length + 1))
  finish : ∀ {s s' done now db}, InBatch s done now → Ready db done now →
    p.endBatch s db = (s', .ok ()) → Received (p.postBatch s') (done ++ now)

section Loop

variable {σ : Type} {p : InnerProcessor σ} {spec : InnerSpec p} {w : Versionstamp → Bool}
  {c : RecordCollector σ} {read : List RevRecord} {done now : Picks}

/-- batch の中の `recordCollector` が、`read` を読んだ走査の状態にあること。 -/
structure Scanning (spec : InnerSpec p) (w : Versionstamp → Bool) (c : RecordCollector σ)
    (read : List RevRecord) (done now : Picks) : Prop where
  candidate : c.batchCurrentRecord = (scanOf w read).candidate.map mark
  emitted : (scanOf w read).emitted = done ++ now
  inner : spec.InBatch c.inner done now

/-- `next` が変えない field。 -/
structure SameInput (c c' : RecordCollector σ) : Prop where
  maxRevision : c'.maxRevision = c.maxRevision
  firstRev : c'.firstRev = c.firstRev

theorem SameInput.inWindow {c' : RecordCollector σ} (h : SameInput c c') (rev : Versionstamp) :
    c'.inWindow rev = c.inWindow rev := by
  simp only [RecordCollector.inWindow, h.maxRevision, h.firstRev]

/-- `flush` の後の状態。`st` は `GroupScan.flush` の後の状態である。 -/
structure Flushed (spec : InnerSpec p) (c c' : RecordCollector σ) (st : GroupScan.State RevRecord)
    (done now now' : Picks) (more : Bool) : Prop where
  candidate : c'.batchCurrentRecord = st.candidate.map mark
  emitted : st.emitted = done ++ now'
  inner : spec.InBatch c'.inner done now'
  same : SameInput c c'
  more_eq : (more = true ∧ now' = now) ∨
    (now' ≠ [] ∧ more = spec.wants (done.length + now'.length))

theorem flush_scanning (h : Scanning spec w c read done now) (k : Key) :
    ∃ c' more now', c.flush p k = (c', more) ∧
      Flushed spec c c' (GroupScan.flush RevRecord.key RevRecord.live (scanOf w read) k)
        done now now' more := by
  have hcand := h.candidate
  have hem := h.emitted
  unfold RecordCollector.flush GroupScan.flush
  cases hst : (scanOf w read).candidate with
  | none =>
    rw [hst] at hcand
    rw [hcand]
    exact ⟨c, true, now, rfl, by rw [hcand, hst], hem, h.inner, ⟨rfl, rfl⟩, Or.inl ⟨rfl, rfl⟩⟩
  | some x =>
    rw [hst] at hcand
    rw [hcand]
    simp only [Option.map_some]
    by_cases hk : x.1.key = k
    · rw [if_neg (show ¬ (mark x).key ≠ k from not_not.mpr hk), if_pos hk]
      exact ⟨c, true, now, rfl, by rw [hcand, hst], hem, h.inner, ⟨rfl, rfl⟩, Or.inl ⟨rfl, rfl⟩⟩
    · rw [if_pos (show (mark x).key ≠ k from hk), if_neg hk]
      cases hd : x.1.record.isDelete with
      | true =>
        rw [if_neg (show ¬ (!(mark x).record.isDelete) = true by
          simp [mark, RevRecord.indexed, hd])]
        refine ⟨_, true, now, rfl, rfl, ?_, h.inner, ⟨rfl, rfl⟩, Or.inl ⟨rfl, rfl⟩⟩
        simp [hem, RevRecord.live, hd]
      | false =>
        rw [if_pos (show (!(mark x).record.isDelete) = true by
          simp [mark, RevRecord.indexed, hd])]
        obtain ⟨hin, hmore⟩ := spec.next x h.inner
        refine ⟨_, _, now ++ [x], rfl, rfl, ?_, hin, ⟨rfl, rfl⟩, Or.inr ⟨by simp, ?_⟩⟩
        · simp [hem, RevRecord.live, hd]
        · rw [hmore, List.length_append]
          rfl

/-- `accept` は候補だけを変える。 -/
theorem accept_scanning {st : GroupScan.State RevRecord} (hc : c.batchCurrentRecord = st.candidate.map mark)
    (a : RevRecord) (hk : ∀ x ∈ st.candidate, x.1.key = a.key) (hw : c.inWindow a.rev = w a.rev) :
    ∃ o, c.accept a.indexed = { c with batchCurrentRecord := o } ∧
      o = (GroupScan.accept (fun r => w r.rev) st a).candidate.map mark := by
  unfold RecordCollector.accept GroupScan.accept
  rw [show c.inWindow a.indexed.rev = w a.rev from hw]
  cases hwa : w a.rev with
  | true =>
    simp only [hwa, if_true]
    exact ⟨_, rfl, rfl⟩
  | false =>
    simp only [hwa, Bool.false_eq_true, if_false]
    cases hst : st.candidate with
    | none =>
      have hnone : c.batchCurrentRecord = none := by rw [hc, hst]; rfl
      refine ⟨none, ?_, rfl⟩
      rw [hnone]
      cases c
      cases hnone
      rfl
    | some x =>
      have hsome : c.batchCurrentRecord = some (mark x) := by rw [hc, hst]; rfl
      rw [hsome]
      simp only
      rw [if_pos (show (mark x).key = a.indexed.key from hk x hst)]
      exact ⟨_, rfl, rfl⟩

/-- `next` は entry を一つ読む。 -/
theorem next_scanning (h : Scanning spec w c read done now) (a : RevRecord)
    (hw : c.inWindow a.rev = w a.rev) (db : Db) (it : IndexIterator) :
    ∃ c' more now', RecordCollector.next p c db (indexEntry a :: it)
        = (c', db, .ok (it, some (indexKey a.key a.rev), more)) ∧
      Scanning spec w c' (read ++ [a]) done now' ∧ SameInput c c' ∧
      ((more = true ∧ now' = now) ∨
        (now' ≠ [] ∧ more = spec.wants (done.length + now'.length))) := by
  obtain ⟨c₁, more, now', hf, hfl⟩ := flush_scanning h a.key
  have hscan : scanOf w (read ++ [a]) = GroupScan.accept (fun r => w r.rev)
      (GroupScan.flush RevRecord.key RevRecord.live (scanOf w read) a.key) a :=
    GroupScan.scan_concat_eq read a
  obtain ⟨o, ho, hcand⟩ := accept_scanning hfl.candidate a GroupScan.flush_candidate_key
    ((hfl.same.inWindow a.rev).trans hw)
  refine ⟨{ c₁ with batchCurrentRecord := o }, more, now', ?_, ⟨?_, ?_, hfl.inner⟩,
    ⟨hfl.same.maxRevision, hfl.same.firstRev⟩, hfl.more_eq⟩
  · unfold RecordCollector.next
    simp only [parseKV_indexEntry]
    rw [show a.indexed.key = a.key from rfl, hf, ← ho]
    rfl
  · rw [hscan]
    exact hcand
  · rw [hscan, ← hfl.emitted]
    unfold GroupScan.accept
    split <;> rfl

/-- 列 `l` まで読んだところで、この batch ではまだ何も渡していないか、内側の collector がまだ
欲しがっていること。 -/
def StillWants (spec : InnerSpec p) (w : Versionstamp → Bool) (done : Picks) (l : List RevRecord) :
    Prop :=
  (scanOf w l).emitted = done ∨ spec.wants (scanOf w l).emitted.length = true

/-- batch の loop が止まる三つの場合。 -/
inductive Stopped (spec : InnerSpec p) (n : Nat) (rest : List RevRecord) (done now : Picks) :
    (m : Nat) → (more : Bool) → Prop
  /-- 時間が来た。 -/
  | timeout (h : n ≤ rest.length) (hw : now = [] ∨ spec.wants (done.length + now.length) = true) :
    Stopped spec n rest done now n true
  /-- 範囲を読み切った。 -/
  | exhausted (h : rest.length < n) (hw : now = [] ∨ spec.wants (done.length + now.length) = true) :
    Stopped spec n rest done now rest.length false
  /-- 内側の collector が要らないと言った。 -/
  | sated (m : Nat) (hm : m ≤ rest.length) (hne : now ≠ [])
      (hw : spec.wants (done.length + now.length) = false) : Stopped spec n rest done now m false

theorem Stopped.le {n m : Nat} {rest : List RevRecord} {more : Bool}
    (h : Stopped spec n rest done now m more) : m ≤ rest.length := by
  cases h with
  | timeout hn hw => exact hn
  | exhausted hn hw => exact le_rfl
  | sated m hm hne hw => exact hm

/-- 最後に読んだ entry の鍵。 -/
def lastKey (read : List RevRecord) : Option IndexKey :=
  read.getLast?.map (fun a => indexKey a.key a.rev)

theorem lastKey_cons (a : RevRecord) (read : List RevRecord) (o : Option IndexKey) :
    (lastKey (a :: read)).or o = (lastKey read).or (some (indexKey a.key a.rev)) := by
  unfold lastKey
  rw [List.getLast?_cons]
  cases read.getLast? with
  | none => rfl
  | some b => rfl

theorem lastKey_append {read rest : List RevRecord} (h : rest ≠ []) :
    lastKey (read ++ rest) = lastKey rest := by
  unfold lastKey
  rw [List.getLast?_append_of_ne_nil _ h]

theorem Scanning.stillWants_iff (h : Scanning spec w c read done now) :
    StillWants spec w done read ↔ now = [] ∨ spec.wants (done.length + now.length) = true := by
  unfold StillWants
  rw [h.emitted, List.length_append, List.append_right_eq_self]

/-- batch の loop は、範囲の先頭から `m` 個を読む。要らないと言われたところで止まるので、それまでは
まだ欲しがられている。 -/
theorem batchLoop_scanning (cfg : Config) (db : Db) : ∀ (n : Nat) (rest : List RevRecord)
    {c : RecordCollector σ} {read : List RevRecord} {now : Picks} (last : Option IndexKey),
    Scanning spec w c read done now → StillWants spec w done read →
    (∀ a ∈ rest, c.inWindow a.rev = w a.rev) →
    ∃ c' m k more now', batchLoop (RecordCollector.processor p cfg) n c db (rest.map indexEntry) last
        = (c', db, .ok ⟨k, more⟩) ∧
      (more = true → k = (lastKey (rest.take m)).or last) ∧
      Scanning spec w c' (read ++ rest.take m) done now' ∧ SameInput c c' ∧
      Stopped spec n rest done now' m more ∧
      ∀ j < m, StillWants spec w done (read ++ rest.take j)
  | 0, rest, c, read, now, last, h, hsw, _ => by
    refine ⟨c, 0, last, true, now, rfl, fun _ => rfl, ?_, ⟨rfl, rfl⟩,
      .timeout (Nat.zero_le _) (h.stillWants_iff.mp hsw), fun j hj => absurd hj (Nat.not_lt_zero j)⟩
    rw [List.take_zero, List.append_nil]
    exact h
  | n + 1, [], c, read, now, last, h, hsw, _ => by
    refine ⟨c, 0, none, false, now, rfl, fun hf => absurd hf (by decide), ?_, ⟨rfl, rfl⟩,
      .exhausted (Nat.succ_pos n) (h.stillWants_iff.mp hsw),
      fun j hj => absurd hj (Nat.not_lt_zero j)⟩
    rw [List.take_zero, List.append_nil]
    exact h
  | n + 1, a :: rest, c, read, now, last, h, hsw, hw => by
    obtain ⟨c₁, more₁, now₁, hnext, h₁, hsame₁, hmore₁⟩ := next_scanning h a
      (hw a List.mem_cons_self) db (rest.map indexEntry)
    have hnext' : (RecordCollector.processor p cfg).next c db ((a :: rest).map indexEntry)
        = (c₁, db, .ok (rest.map indexEntry, some (indexKey a.key a.rev), more₁)) := hnext
    rw [batchLoop, hnext']
    cases more₁ with
    | false =>
      rcases hmore₁ with ⟨hf, -⟩ | ⟨hne, hwant⟩
      · cases hf
      · refine ⟨c₁, 1, some (indexKey a.key a.rev), false, now₁, rfl, fun hf => absurd hf (by decide),
          h₁, hsame₁, .sated 1 (by simp) hne hwant.symm, fun j hj => ?_⟩
        rw [Nat.lt_one_iff.mp hj, List.take_zero, List.append_nil]
        exact hsw
    | true =>
      have hw₁ : ∀ b ∈ rest, c₁.inWindow b.rev = w b.rev := fun b hb =>
        (hsame₁.inWindow b.rev).trans (hw b (List.mem_cons_of_mem _ hb))
      have hsw₁ : StillWants spec w done (read ++ [a]) := by
        rw [h₁.stillWants_iff]
        rcases hmore₁ with ⟨-, rfl⟩ | ⟨-, hwant⟩
        · exact h.stillWants_iff.mp hsw
        · exact Or.inr hwant.symm
      obtain ⟨c₂, m, k, more, now₂, hloop, hk, h₂, hsame₂, hstop, hbefore⟩ :=
        batchLoop_scanning cfg db n rest (some (indexKey a.key a.rev)) h₁ hsw₁ hw₁
      refine ⟨c₂, m + 1, k, more, now₂, hloop, fun hm => ?_, ?_,
        ⟨hsame₂.maxRevision.trans hsame₁.maxRevision, hsame₂.firstRev.trans hsame₁.firstRev⟩, ?_, ?_⟩
      · rw [hk hm, List.take_succ_cons, lastKey_cons]
      · rw [List.take_succ_cons, List.append_cons]
        exact h₂
      · cases hstop with
        | timeout hn hwant => exact .timeout (Nat.succ_le_succ hn) hwant
        | exhausted hn hwant => exact .exhausted (Nat.succ_lt_succ hn) hwant
        | sated m hm hne hwant => exact .sated (m + 1) (Nat.succ_le_succ hm) hne hwant
      · intro j hj
        cases j with
        | zero =>
          rw [List.take_zero, List.append_nil]
          exact hsw
        | succ j =>
          rw [List.take_succ_cons, List.append_cons]
          exact hbefore j (Nat.lt_of_succ_lt_succ hj)

/-! ## batch の終わり -/

/-- 最後の batch では、残った候補も渡す。 -/
theorem deliverLast_scanning (h : Scanning spec w c read done now) (isLast : Bool) :
    ∃ inner now', c.deliverLast p isLast = { c with inner := inner } ∧
      spec.InBatch inner done now' ∧
      done ++ now' = if isLast then GroupScan.finish RevRecord.live (scanOf w read)
        else (scanOf w read).emitted := by
  have hinner := h.inner
  have hem := h.emitted
  obtain ⟨maxRevision, inner, current, cur, firstRev, rev, batchRev⟩ := c
  obtain rfl : cur = (scanOf w read).candidate.map mark := h.candidate
  unfold RecordCollector.deliverLast GroupScan.finish
  cases hst : (scanOf w read).candidate with
  | none => exact ⟨inner, now, rfl, hinner, by simp [hem]⟩
  | some x =>
    simp only [Option.map_some]
    cases hd : x.1.record.isDelete with
    | true =>
      rw [if_neg (by simp [mark, RevRecord.indexed, hd])]
      exact ⟨inner, now, rfl, hinner, by simp [hem, RevRecord.live, hd]⟩
    | false =>
      cases isLast with
      | false =>
        rw [if_neg (by simp)]
        exact ⟨inner, now, rfl, hinner, by simp [hem]⟩
      | true =>
        rw [if_pos (by simp [mark, RevRecord.indexed, hd])]
        exact ⟨_, now ++ [x], rfl, (spec.next x hinner).1, by simp [hem, RevRecord.live, hd]⟩

/-- pin した revision が watermark より古いこと。 -/
def PinCompacted (maxRevision : Int) (db : Db) : Prop :=
  0 < maxRevision ∧ maxRevision < versionstampToInt64 db.getCompactRev

instance (maxRevision : Int) (db : Db) : Decidable (PinCompacted maxRevision db) :=
  inferInstanceAs (Decidable (_ ∧ _))

/-- batch の外の `recordCollector` が、`read` を読み終えた状態にあること。 -/
structure ScanInv (spec : InnerSpec p) (w : Versionstamp → Bool) (call : ListCall σ)
    (read : List RevRecord) : Prop where
  running : call.status = .running
  begin_ : call.beginKey = lastKey read
  candidate : call.collector.currentRecord = (scanOf w read).candidate.map mark
  received : spec.Received call.collector.inner (scanOf w read).emitted

/-- batch が成功したときの入力と `firstRev`。 -/
structure Advanced (cfg : Config) (db : Db) (call call' : ListCall σ) : Prop where
  maxRevision : call'.collector.maxRevision = call.collector.maxRevision
  firstRev : call'.collector.firstRev =
    if call.collector.firstRev = 0 then db.getLatestRev cfg else call.collector.firstRev
  notCompacted : ¬ PinCompacted call.collector.maxRevision db

/-- 一つの batch の結果。`rest` はこの snapshot でまだ読んでいない record である。 -/
inductive ScanBatch (spec : InnerSpec p) (w : Versionstamp → Bool) (cfg : Config) (db : Db)
    (n : Nat) (call : ListCall σ) (read rest : List RevRecord) (call' : ListCall σ) : Prop
  /-- 時間が来て、続きは次の batch になる。 -/
  | continued (hn : n < rest.length) (hadv : Advanced cfg db call call')
      (hinv : ScanInv spec w call' (read ++ rest.take (n + 1)))
      (hwants : ∀ j ≤ n + 1, StillWants spec w (scanOf w read).emitted (read ++ rest.take j))
  /-- 範囲を読み切った。 -/
  | finished (hn : rest.length ≤ n) (hadv : Advanced cfg db call call')
      (hdone : call'.status = .done)
      (hrec : spec.Received call'.collector.inner
        (GroupScan.finish RevRecord.live (scanOf w (read ++ rest))))
      (hwants : ∀ j ≤ rest.length, StillWants spec w (scanOf w read).emitted (read ++ rest.take j))
  /-- 内側の collector が要らないと言った。 -/
  | sated (m : Nat) (hm : m ≤ rest.length) (hadv : Advanced cfg db call call')
      (hdone : call'.status = .done)
      (hne : (scanOf w (read ++ rest.take m)).emitted ≠ (scanOf w read).emitted)
      (hw : spec.wants (scanOf w (read ++ rest.take m)).emitted.length = false)
      (hrec : spec.Received call'.collector.inner
        (GroupScan.finish RevRecord.live (scanOf w (read ++ rest.take m))))
      (hwants : ∀ j < m, StillWants spec w (scanOf w read).emitted (read ++ rest.take j))
  /-- watermark を見て失敗した。読んだところまでの record は仕上がっている。 -/
  | compacted (hfail : call'.status = .failed .compacted)
      (hc : PinCompacted call.collector.maxRevision db) (picks : Picks)
      (hrec : spec.Received call'.collector.inner picks) (m : Nat) (hm : m ≤ rest.length)
      (hpicks : picks = (scanOf w (read ++ rest.take m)).emitted ∨
        picks = GroupScan.finish RevRecord.live (scanOf w (read ++ rest.take m)))
  /-- 内側の collector の仕上げが失敗した。 -/
  | broken (e : Err) (hfail : call'.status = .failed e) (inner inner' : σ) (now : Picks)
      (hin : spec.InBatch inner (scanOf w read).emitted now)
      (hend : p.endBatch inner db = (inner', .error e))
      (m : Nat) (hm : m ≤ rest.length)
      (hnow : (scanOf w read).emitted ++ now = (scanOf w (read ++ rest.take m)).emitted ∨
        (scanOf w read).emitted ++ now
          = GroupScan.finish RevRecord.live (scanOf w (read ++ rest.take m)))

/-- `endBatch` の結果。内側の仕上げが失敗するか、watermark を見て失敗するか、成功する。 -/
theorem endBatch_eq (cfg : Config) (db : Db) {isLast : Bool} {inner : σ} (inner' : σ)
    (hc : c.deliverLast p isLast = { c with inner := inner }) :
    (∀ e, p.endBatch inner db = (inner', .error e) →
      RecordCollector.endBatch p cfg c db isLast
        = ({ c with inner := inner' }, db, .error e)) ∧
    (p.endBatch inner db = (inner', .ok ()) →
      RecordCollector.endBatch p cfg c db isLast
        = ({ c with inner := inner', batchRev := db.getLatestRev cfg }, db,
          if PinCompacted c.maxRevision db then .error .compacted else .ok ())) := by
  unfold RecordCollector.endBatch
  rw [hc]
  constructor
  · intro e he
    simp only [he]
  · intro he
    simp only [he]
    by_cases hp : PinCompacted c.maxRevision db
    · rw [if_pos hp]
      exact if_pos hp
    · rw [if_neg hp]
      exact if_neg hp

/-- batch の始め。 -/
theorem ScanInv.startBatch {call : ListCall σ} (cfg : Config) (h : ScanInv spec w call read) :
    Scanning spec w ((RecordCollector.processor p cfg).startBatch call.collector) read
      (scanOf w read).emitted [] :=
  ⟨h.candidate, (List.append_nil _).symm, spec.start h.received⟩

/-- 一つの batch の仕様。 -/
theorem scan_batch (cfg : Config) {db : Db} {call : ListCall σ} {rest : List RevRecord} {n : Nat}
    {range : Bytes × Bytes} (h : ScanInv spec w call read)
    (hrange : indexRange range db call.beginKey = rest.map indexEntry)
    (hw : ∀ a ∈ rest, call.collector.inWindow a.rev = w a.rev)
    (hmid : ∀ now, n < rest.length →
      (scanOf w (read ++ rest.take (n + 1))).emitted = (scanOf w read).emitted ++ now →
      spec.Ready db (scanOf w read).emitted now)
    (hlast : ∀ now, GroupScan.finish RevRecord.live (scanOf w (read ++ rest))
        = (scanOf w read).emitted ++ now → spec.Ready db (scanOf w read).emitted now)
    (hsated : ∀ m now, m ≤ rest.length →
      spec.wants (scanOf w (read ++ rest.take m)).emitted.length = false →
      GroupScan.finish RevRecord.live (scanOf w (read ++ rest.take m))
        = (scanOf w read).emitted ++ now → spec.Ready db (scanOf w read).emitted now) :
    (call.batch (RecordCollector.processor p cfg) (indexRange range) n db).2 = db ∧
      ScanBatch spec w cfg db n call read rest
        (call.batch (RecordCollector.processor p cfg) (indexRange range) n db).1 := by
  obtain ⟨c, m, k, more, now, hloop, hk, hs, hsame, hstop, hbefore⟩ :=
    batchLoop_scanning cfg db (n + 1) rest none (h.startBatch cfg) (Or.inl rfl) hw
  obtain ⟨inner, now', hc, hin, hnow⟩ := deliverLast_scanning hs (!more)
  have hcases : (scanOf w read).emitted ++ now' = (scanOf w (read ++ rest.take m)).emitted ∨
      (scanOf w read).emitted ++ now'
        = GroupScan.finish RevRecord.live (scanOf w (read ++ rest.take m)) := by
    split at hnow
    · exact Or.inr hnow
    · exact Or.inl hnow
  cases hend : p.endBatch inner db with
  | mk inner' res =>
    obtain ⟨herr, hok⟩ := endBatch_eq cfg db inner' hc
    cases res with
    | error e =>
      have hproc := processBatch_endBatch_error (p := RecordCollector.processor p cfg)
        (s := call.collector) hloop (herr e hend)
      rw [← hrange] at hproc
      rw [RangeCall.batch_error hproc]
      exact ⟨rfl, .broken e rfl inner inner' now' hin hend m hstop.le hcases⟩
    | ok u =>
      have hep := hok hend
      have hmax : c.maxRevision = call.collector.maxRevision := hsame.maxRevision
      -- どこで止まっても、渡した record は仕上がる
      have hready : spec.Ready db (scanOf w read).emitted now' := by
        cases hstop with
        | timeout hn hwant => exact hmid now' hn hnow.symm
        | exhausted hn hwant => exact hlast now' (by rw [hnow, List.take_length]; rfl)
        | sated m hm hne hwant =>
          refine hsated m now' hm ?_ hnow.symm
          rw [hs.emitted, List.length_append]
          exact hwant
      have hrec := spec.finish hin hready hend
      by_cases hpin : PinCompacted c.maxRevision db
      · rw [if_pos hpin] at hep
        have hproc := processBatch_endBatch_error (p := RecordCollector.processor p cfg)
          (s := call.collector) hloop hep
        rw [← hrange] at hproc
        rw [RangeCall.batch_error hproc]
        exact ⟨rfl, .compacted rfl (hmax ▸ hpin) _ hrec m hstop.le hcases⟩
      · rw [if_neg hpin] at hep
        have hproc := processBatch_ok (p := RecordCollector.processor p cfg)
          (s := call.collector) hloop hep
        rw [← hrange] at hproc
        rw [RangeCall.batch_ok hproc]
        have hfirst : (if c.firstRev = 0 then db.getLatestRev cfg else c.firstRev) =
            if call.collector.firstRev = 0 then db.getLatestRev cfg else call.collector.firstRev := by
          rw [show c.firstRev = call.collector.firstRev from hsame.firstRev]
        have hnp : ¬ PinCompacted call.collector.maxRevision db := hmax ▸ hpin
        -- 止まったところでもまだ欲しがられていれば、読んだところすべてで欲しがられている
        have hupto : (now = [] ∨ spec.wants ((scanOf w read).emitted.length + now.length) = true) →
            ∀ j ≤ m, StillWants spec w (scanOf w read).emitted (read ++ rest.take j) := by
          intro hwant j hj
          rcases lt_or_eq_of_le hj with hlt | rfl
          · exact hbefore j hlt
          · exact hs.stillWants_iff.mpr hwant
        cases hstop with
        | timeout hn hwant =>
          rw [if_pos rfl]
          simp only [Bool.not_true, Bool.false_eq_true, if_false] at hnow
          refine ⟨rfl, .continued hn ⟨hmax, hfirst, hnp⟩ ⟨rfl, ?_, hs.candidate, hnow ▸ hrec⟩
            (hupto hwant)⟩
          have hne : rest.take (n + 1) ≠ [] :=
            List.ne_nil_of_length_pos (by rw [List.length_take]; omega)
          rw [hk rfl, Option.or_none, lastKey_append hne]
        | exhausted hn hwant =>
          rw [if_neg Bool.false_ne_true]
          simp only [Bool.not_false, if_true, List.take_length] at hnow
          exact ⟨rfl, .finished (Nat.le_of_lt_succ hn) ⟨hmax, hfirst, hnp⟩ rfl (hnow ▸ hrec)
            (hupto hwant)⟩
        | sated m hm hne hwant =>
          rw [if_neg Bool.false_ne_true]
          simp only [Bool.not_false, if_true] at hnow
          refine ⟨rfl, .sated m hm ⟨hmax, hfirst, hnp⟩ rfl ?_ ?_ (hnow ▸ hrec) hbefore⟩
          · rw [hs.emitted]
            intro hc
            exact hne (List.append_right_eq_self.mp hc)
          · rw [hs.emitted, List.length_append]
            exact hwant

end Loop

end KubeFdb
