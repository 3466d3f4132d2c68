import KubeFdb.Driver.Subspace

/-!
# 範囲の走査と batch

`fdb_util.go` の `processRange` と `processBatch`。長い走査は時間で切られ、batch ごとに別の
transaction になる。どこで切れるかは時計が決めるので、batch が何回 `next` を呼ぶかを
引数 `n` で受け取る。時計は `next` の後で見るので、少なくとも一回は呼ぶ。

batch の transaction は直列化可能だから、一つの database の状態で一度に実行する。
`next` は transaction の中の書き込みを見る（`compactProcessor` が使う）。iterator の中身は
batch の始めに決まる。`compactProcessor` は読み終えた revision しか消さない。
-/

namespace KubeFdb

/-- `Processor`。`σ` は collector の状態、`κ`、`ν` は読む subspace の鍵と値である。
error になっても collector の書き換えは残る。 -/
structure Processor (σ κ ν : Type) where
  startBatch : σ → σ
  next : σ → Db → List (κ × ν) → σ × Db × Except Err (List (κ × ν) × Option κ × Bool)
  endBatch : σ → Db → Bool → σ × Db × Except Err Unit
  postBatch : σ → σ

structure BatchResult (κ : Type) where
  lastReadKey : Option κ
  collectorNeedsMore : Bool

variable {σ κ ν : Type}

/-- `processBatch` の loop。残り `n` 回まで `next` を呼ぶ。 -/
def batchLoop (p : Processor σ κ ν) :
    Nat → σ → Db → List (κ × ν) → Option κ → σ × Db × Except Err (BatchResult κ)
  | 0, s, tr, _, last => (s, tr, .ok ⟨last, true⟩)
  | n + 1, s, tr, it, _ =>
    match p.next s tr it with
    | (s', tr', .error e) => (s', tr', .error e)
    | (s', tr', .ok (it', lastKey, more)) =>
      if more && lastKey.isSome then batchLoop p n s' tr' it' lastKey
      else (s', tr', .ok ⟨lastKey, false⟩)

/-- `processBatch`。error なら transaction は捨てられ、`postBatch` だけが走る。 -/
def processBatch (p : Processor σ κ ν) (n : Nat) (s : σ) (db : Db) (it : List (κ × ν)) :
    σ × Db × Except Err (BatchResult κ) :=
  match batchLoop p (n + 1) (p.startBatch s) db it none with
  | (s1, _, .error e) => (p.postBatch s1, db, .error e)
  | (s1, tr, .ok res) =>
    match p.endBatch s1 tr (!res.collectorNeedsMore) with
    | (s2, _, .error e) => (p.postBatch s2, db, .error e)
    | (s2, tr', .ok ()) => (p.postBatch s2, tr', .ok res)

/-! ## processRange -/

inductive CallStatus where
  | running
  | done
  | failed (e : Err)
deriving DecidableEq, Repr

/-- 途中の `processRange`。`beginKey` は最後に読んだ鍵で、`none` は範囲の始めを指す。 -/
structure RangeCall (σ κ : Type) where
  collector : σ
  beginKey : Option κ
  status : CallStatus
deriving DecidableEq

def RangeCall.start (collector : σ) : RangeCall σ κ := ⟨collector, none, .running⟩

/-- `range` は範囲の中で `beginKey` より後ろの entry を返す。 -/
abbrev RangeOf (κ ν : Type) := Db → Option κ → List (κ × ν)

/-- `processRange` の loop 一回分。 -/
def RangeCall.batch (p : Processor σ κ ν) (range : RangeOf κ ν) (n : Nat) (c : RangeCall σ κ)
    (db : Db) : RangeCall σ κ × Db :=
  match processBatch p n c.collector db (range db c.beginKey) with
  | (s, db', .error e) => ({ c with collector := s, status := .failed e }, db')
  | (s, db', .ok res) =>
    if res.collectorNeedsMore then (⟨s, res.lastReadKey, .running⟩, db')
    else (⟨s, c.beginKey, .done⟩, db')

/-- ほかの transaction が挟まらない `processRange`。`splits i` は `i` 番目の batch の大きさ、
`fuel` は batch の数の上限である。 -/
def processRange (p : Processor σ κ ν) (range : RangeOf κ ν) (splits : Nat → Nat) :
    Nat → Nat → RangeCall σ κ → Db → RangeCall σ κ × Db
  | 0, _, c, db => (c, db)
  | fuel + 1, i, c, db =>
    if c.status = .running then
      let r := c.batch p range (splits i) db
      processRange p range splits fuel (i + 1) r.1 r.2
    else (c, db)

section

variable {p : Processor σ κ ν} {n : Nat} {db tr tr' : Db} {res : BatchResult κ}

theorem processBatch_ok {s s1 s2 : σ} {it : List (κ × ν)}
    (hloop : batchLoop p (n + 1) (p.startBatch s) db it none = (s1, tr, .ok res))
    (hend : p.endBatch s1 tr (!res.collectorNeedsMore) = (s2, tr', .ok ())) :
    processBatch p n s db it = (p.postBatch s2, tr', .ok res) := by
  simp only [processBatch, hloop, hend]

theorem processBatch_endBatch_error {s s1 s2 : σ} {it : List (κ × ν)} {e : Err}
    (hloop : batchLoop p (n + 1) (p.startBatch s) db it none = (s1, tr, .ok res))
    (hend : p.endBatch s1 tr (!res.collectorNeedsMore) = (s2, tr', .error e)) :
    processBatch p n s db it = (p.postBatch s2, db, .error e) := by
  simp only [processBatch, hloop, hend]

theorem RangeCall.batch_ok {range : RangeOf κ ν} {c : RangeCall σ κ} {s : σ}
    (h : processBatch p n c.collector db (range db c.beginKey) = (s, tr, .ok res)) :
    c.batch p range n db =
      if res.collectorNeedsMore then (⟨s, res.lastReadKey, .running⟩, tr)
      else (⟨s, c.beginKey, .done⟩, tr) := by
  simp only [RangeCall.batch, h]

theorem RangeCall.batch_error {range : RangeOf κ ν} {c : RangeCall σ κ} {s : σ} {e : Err}
    (h : processBatch p n c.collector db (range db c.beginKey) = (s, tr, .error e)) :
    c.batch p range n db = ({ c with collector := s, status := .failed e }, tr) := by
  simp only [RangeCall.batch, h]

/-- batch は、`startBatch` の後の collector だけから決まる。 -/
theorem processBatch_congr {a b : σ} (h : p.startBatch a = p.startBatch b)
    (n : Nat) (db : Db) (it : List (κ × ν)) : processBatch p n a db it = processBatch p n b db it := by
  simp only [processBatch, h]

theorem RangeCall.batch_congr {c e : RangeCall σ κ}
    (hb : c.beginKey = e.beginKey) (h : p.startBatch c.collector = p.startBatch e.collector)
    (range : RangeOf κ ν) (n : Nat) (db : Db) : c.batch p range n db = e.batch p range n db := by
  simp only [RangeCall.batch, hb, processBatch_congr h]

/-- 終わった call は、もう進まない。 -/
theorem processRange_of_ne_running {range : RangeOf κ ν} {splits : Nat → Nat} {c : RangeCall σ κ}
    (h : c.status ≠ .running) : ∀ fuel i, processRange p range splits fuel i c db = (c, db)
  | 0, _ => rfl
  | fuel + 1, i => by rw [processRange, if_neg h]

end

/-- 鍵 `begin` より後ろの entry。`fdb.FirstGreaterThan` にあたる。 -/
def entriesAfter [LinearOrder κ] (begin_ : Option κ) (l : List (κ × ν)) : List (κ × ν) :=
  match begin_ with
  | none => l
  | some k => l.filter (fun e => decide (k < e.1))

end KubeFdb
