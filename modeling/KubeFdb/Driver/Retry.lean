import KubeFdb.Driver.Watch
import KubeFdb.Driver.Wal
import KubeFdb.Driver.Compact

/-!
# batch のやり直し

`transact` は、transaction が失敗すると同じ closure をもう一度呼ぶ。`processBatch` の closure は
collector を書き換えるので、失敗した回の書き換えは collector に残ったまま `startBatch` からやり直される。

失敗は三つの場所で起きる。

* `next` — 読み出しに失敗する。どの collector の `next` も、失敗し得る読み出しがすべて済んでから
  自分を書き換える
* `endBatch` — 途中の読み出しに失敗する。それまでの書き換えは残る（`endFault`）
* commit — `endBatch` まで済んでから失敗する
-/

namespace KubeFdb

variable {σ κ ν : Type}

/-- 失敗し得る `Processor`。`endFault` は、`endBatch` が `i` 番目の場所で失敗したときの collector である。 -/
structure Faulty (σ κ ν : Type) extends Processor σ κ ν where
  endFault : σ → Db → Bool → Nat → σ

/-- 失敗の場所。`n` は `processBatch` の `n` と同じく、`next` を呼ぶ回数を決める。 -/
inductive Failure where
  /-- `j` 回の `next` の後の `next`。 -/
  | next (j : Nat)
  | endBatch (n i : Nat)
  | commit (n : Nat)
deriving DecidableEq

/-- 失敗した回が残す collector。書き込みは捨てられる。 -/
def Faulty.failed (p : Faulty σ κ ν) (s : σ) (db : Db) (it : List (κ × ν)) : Failure → σ
  | .next j => (batchLoop p.toProcessor j (p.startBatch s) db it none).1
  | .endBatch n i =>
    match batchLoop p.toProcessor (n + 1) (p.startBatch s) db it none with
    | (s1, _, .error _) => s1
    | (s1, tr, .ok res) => p.endFault s1 tr (!res.collectorNeedsMore) i
  | .commit n =>
    match batchLoop p.toProcessor (n + 1) (p.startBatch s) db it none with
    | (s1, _, .error _) => s1
    | (s1, tr, .ok res) => (p.endBatch s1 tr (!res.collectorNeedsMore)).1

/-- 回の途中の collector が `I` を満たすなら、失敗した回は `Q` を満たす collector を残す。 -/
theorem Faulty.failed_of {p : Faulty σ κ ν} {s : σ} {db : Db} {it : List (κ × ν)} {I Q : σ → Prop}
    (hloop : ∀ n, I (batchLoop p.toProcessor n (p.startBatch s) db it none).1)
    (hnext : ∀ s, I s → Q s) (hend : ∀ s tr isLast, I s → Q (p.endBatch s tr isLast).1)
    (hfault : ∀ s tr isLast i, I s → Q (p.endFault s tr isLast i)) (f : Failure) :
    Q (p.failed s db it f) := by
  cases f with
  | next j => exact hnext _ (hloop j)
  | endBatch n i =>
    have hI := hloop (n + 1)
    rw [Faulty.failed]
    split
    · next s1 tr e hrun =>
      rw [hrun] at hI
      exact hnext s1 hI
    · next s1 tr res hrun =>
      rw [hrun] at hI
      exact hfault s1 tr _ i hI
  | commit n =>
    have hI := hloop (n + 1)
    rw [Faulty.failed]
    split
    · next s1 tr e hrun =>
      rw [hrun] at hI
      exact hnext s1 hI
    · next s1 tr res hrun =>
      rw [hrun] at hI
      exact hend s1 tr _ hI

/-- 失敗した回の後の `processRange`。 -/
def RangeCall.failed (p : Faulty σ κ ν) (range : RangeOf κ ν) (c : RangeCall σ κ) (db : Db)
    (f : Failure) : RangeCall σ κ :=
  { c with collector := p.failed c.collector db (range db c.beginKey) f }

/-- `next`、`endBatch`、`endFault` が、`startBatch` の捨てるものしか変えないこと。 -/
theorem Faulty.startBatch_failed {p : Faulty σ κ ν}
    (hstart : ∀ s, p.startBatch (p.startBatch s) = p.startBatch s)
    (hnext : ∀ s tr it, p.startBatch (p.next s tr it).1 = p.startBatch s)
    (hend : ∀ s tr isLast, p.startBatch (p.endBatch s tr isLast).1 = p.startBatch s)
    (hfault : ∀ s tr isLast i, p.startBatch (p.endFault s tr isLast i) = p.startBatch s)
    (s : σ) (db : Db) (it : List (κ × ν)) (f : Failure) :
    p.startBatch (p.failed s db it f) = p.startBatch s := by
  have hloop : ∀ n s' tr it last, p.startBatch (batchLoop p.toProcessor n s' tr it last).1
      = p.startBatch s' := by
    intro n
    induction n with
    | zero => intro s' tr it last; rfl
    | succ n ih =>
      intro s' tr it last
      have h := hnext s' tr it
      rw [batchLoop]
      split
      · next hrun => rw [hrun] at h; exact h
      · next hrun =>
        rw [hrun] at h
        split
        · exact (ih _ _ _ _).trans h
        · exact h
  refine Faulty.failed_of (I := fun s' => p.startBatch s' = p.startBatch s)
    (fun n => (hloop n _ _ _ _).trans (hstart s)) (fun _ h => h) (fun s' tr isLast h => ?_)
    (fun s' tr isLast i h => ?_) f
  · exact (hend s' tr isLast).trans h
  · exact (hfault s' tr isLast i).trans h

/-! ## record を共有しない collector -/

/-- `afterCollector`。`endBatch` は最新の revision と watermark を読む。 -/
def AfterCollector.faulty (cfg : Config) (params : AfterParams) :
    Faulty AfterCollector RevKey RevValue where
  toProcessor := AfterCollector.processor cfg params
  endFault c tr _isLast i :=
    match i with
    | 0 => c
    | _ + 1 => if c.latestRev = 0 then { c with batchLatestRev := tr.getLatestRev cfg } else c

theorem AfterCollector.startBatch_failed (cfg : Config) (params : AfterParams) (s : AfterCollector)
    (db : Db) (it : List (RevKey × RevValue)) (f : Failure) :
    (faulty cfg params).startBatch ((faulty cfg params).failed s db it f)
      = (faulty cfg params).startBatch s := by
  refine Faulty.startBatch_failed (fun _ => rfl) (fun s tr it => ?_) (fun s tr isLast => ?_)
    (fun s tr isLast i => ?_) s db it f
  · show (AfterCollector.processor cfg params).startBatch (s.next cfg params tr it).1 = _
    unfold AfterCollector.next
    split
    · rfl
    · rfl
    · split_ifs
      · rfl
      · split <;> rfl
      · rfl
  · show (AfterCollector.processor cfg params).startBatch (s.endBatch cfg params tr isLast).1 = _
    unfold AfterCollector.endBatch
    split_ifs <;> rfl
  · cases i with
    | zero => rfl
    | succ i =>
      show (AfterCollector.processor cfg params).startBatch (if s.latestRev = 0 then _ else _) = _
      split_ifs <;> rfl

/-- `walCollector`。`endBatch` は何もしない。 -/
def WalCollector.faulty : Faulty WalCollector RevKey RevValue where
  toProcessor := WalCollector.processor
  endFault c _tr _isLast _i := c

theorem WalCollector.startBatch_failed (s : WalCollector) (db : Db)
    (it : List (RevKey × RevValue)) (f : Failure) :
    faulty.startBatch (faulty.failed s db it f) = faulty.startBatch s := by
  refine Faulty.startBatch_failed (fun _ => rfl) (fun s tr it => ?_) (fun _ _ _ => rfl)
    (fun _ _ _ _ => rfl) s db it f
  show WalCollector.processor.startBatch (s.next tr it).1 = _
  unfold WalCollector.next
  split <;> rfl

/-- `lastTr` も持つ `compactProcessor`。transaction は、何番目の `transact` が作ったかで表す。 -/
structure CompactTrProcessor where
  processor : CompactProcessor
  lastTr : Option Nat
deriving DecidableEq

namespace CompactTrProcessor

def new : CompactTrProcessor := ⟨newCompactProcessor, none⟩

def next (c : CompactTrProcessor) (tr : Db) (it : RevIterator) :
    CompactTrProcessor × Db × Except Err (RevIterator × Option RevKey × Bool) :=
  let out := c.processor.next tr it
  ({ c with processor := out.1 }, out.2)

/-- `compactProcessor.endBatch`。`id` はこの batch の transaction である。 -/
def endBatch (id : Nat) (c : CompactTrProcessor) (tr : Db) (isLast : Bool) :
    CompactTrProcessor × Db × Except Err Unit :=
  let out := c.processor.endBatch tr isLast
  (⟨out.1, if isLast then some id else c.lastTr⟩, out.2)

/-- `endBatch` に失敗し得る操作はない。 -/
def faulty (id : Nat) : Faulty CompactTrProcessor RevKey RevValue where
  startBatch c := { c with processor := CompactProcessor.processor.startBatch c.processor }
  next := next
  endBatch := endBatch id
  postBatch c := { c with processor := CompactProcessor.processor.postBatch c.processor }
  endFault c _tr _isLast _i := c

end CompactTrProcessor

end KubeFdb
