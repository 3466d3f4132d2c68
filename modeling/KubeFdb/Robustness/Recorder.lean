import KubeFdb.Lib.Lists
import KubeFdb.Robustness.Answers
import KubeFdb.System.PinnedScan
import KubeFdb.System.WriteAnswers

/-!
# 記録された呼び出し

client の書き込みと一覧が並行して走り、始まりと終わりの時刻と答えが記録される系。時刻は手の数で数える。書き込みは
再試行を挟み、一覧は batch の間にほかの手を挟む。

* `Recorder.Effect` — 手がすることのすべて
* `Recorder.inv_step` — どの一覧も、最初の batch の時点の答えを作り続ける
* `Recorder.writeInv_step` — 再試行が自分の record を見つけるなら、どの書き込みも高々一つの record を書く
* `Scanning.reply` — 終わった一覧の答えは、最初の batch の時点のモデルの応答に当たる
-/

namespace KubeFdb.Robustness

open Tuple

/-! ## 記録 -/

/-- 呼び出しの進み具合。`snapshot` は、最初の batch が読んだ store の ghost である。 -/
inductive Progress where
  | write (call : WriteCall)
  | list (prefix_ : Key) (revision : Int) (range : Bytes × Bytes) (call : ListCall ListCollector)
      (snapshot : Option Store)
deriving DecidableEq

namespace Progress

def writes : Progress → List WriteCall
  | .write c => [c]
  | .list _ _ _ _ _ => []

/-- 書いた record。 -/
def appended : Progress → List RevRecord
  | .write c => c.appended
  | .list _ _ _ _ _ => []

def request {V : Type} (toV : Bytes → V) : Progress → Request V
  | .write c => requestFor toV c.op
  | .list prefix_ revision _ _ _ => .range (listOptions prefix_) revision

end Progress

/-- 記録された呼び出し。`returned` は終わりの時刻と答えで、終わっていなければない。error を受け取った呼び出しには
答えがない。 -/
structure Recorded where
  clientId : Int
  progress : Progress
  call : Nat
  returned : Option (Nat × Option Reply)
deriving DecidableEq

structure Recorder where
  store : Store
  ops : List Recorded
  usedUUIDs : List UUID
  now : Nat
deriving DecidableEq

def Recorder.init : Recorder := ⟨.init, [], [], 1⟩

inductive RecorderLabel where
  /-- 書き込みのほかの store の手。 -/
  | store (a : StoreLabel)
  | write (clientId : Int) (op : WriteOp) (uuid : UUID)
  | attempt (i : Nat) (uuid : UUID) (v : Nat) (fate : Fate)
  | list (clientId : Int) (prefix_ : Key) (revision : Int)
  | batch (i n : Nat)
deriving DecidableEq

/-- 試行で終わった書き込みの答え。結果の分からない試行と衝突した試行では終わらない。 -/
def attemptReply (cfg : Config) (op : WriteOp) (fate : Fate) :
    Except Err TxOut → Option (Option Reply)
  | .error .keyExists => some (some .keyExists)
  | .error _ => some none
  | .ok out =>
    if fate = .committed then some (some (replyFor (out.result.getResult cfg) op)) else none

/-- batch で終わった一覧の答え。 -/
def listReply (cfg : Config) (revision : Int) (call : ListCall ListCollector) :
    Option (Option Reply) :=
  if call.status = .running then none
  else
    match listResult revision call with
    | .error _ => some none
    | .ok (rev, c) => some (some (.listed rev (toKeyValues cfg c.records)))

/-- 試行の後の記録。 -/
def Recorded.attempted (cfg : Config) (o : Recorded) (c : WriteCall) (uuid : UUID) (fate : Fate)
    (out : Except Err TxOut) (now : Nat) : Recorded :=
  { o with
    progress := .write (c.after uuid fate out)
    returned := (attemptReply cfg c.op fate out).map (fun reply => (now, reply)) }

/-- batch の後の記録。 -/
def Recorded.scanned (cfg : Config) (o : Recorded) (prefix_ : Key) (revision : Int)
    (range : Bytes × Bytes) (call : ListCall ListCollector) (snapshot : Option Store) (now : Nat) :
    Recorded :=
  { o with
    progress := .list prefix_ revision range call snapshot
    returned := (listReply cfg revision call).map (fun reply => (now, reply)) }

/-- 一手。 -/
def Recorder.step (cfg : Config) (s : Recorder) : RecorderLabel → Option Recorder
  | .store a =>
    if a.isWrite then none
    else (s.store.step cfg a).map (fun t => { s with store := t, now := s.now + 1 })
  | .write clientId op uuid =>
    if uuid ∈ s.usedUUIDs then none
    else some { s with
      ops := s.ops ++ [⟨clientId, .write ⟨op, uuid, .running, []⟩, s.now, none⟩]
      usedUUIDs := uuid :: s.usedUUIDs
      now := s.now + 1 }
  | .attempt i uuid v fate =>
    match s.ops[i]? with
    | none => none
    | some o =>
      match o.progress with
      | .list _ _ _ _ _ => none
      | .write c =>
        if c.status = .running ∧ uuid ∉ s.usedUUIDs then
          (s.store.step cfg (.write c.op c.lastWriteUUID uuid v)).map (fun t =>
            { store := if fate = .notCommitted then s.store else t
              ops := s.ops.set i (o.attempted cfg c uuid fate
                (c.op.tx cfg c.lastWriteUUID uuid v s.store.db) s.now)
              usedUUIDs := uuid :: s.usedUUIDs
              now := s.now + 1 })
        else none
  | .list clientId prefix_ revision =>
    match listRange prefix_ prefix_ with
    | .error _ => none
    | .ok range => some { s with
        ops := s.ops ++ [⟨clientId, .list prefix_ revision range
          (.start (newRecordCollector revision (newListCollector 0 false))) none, s.now, none⟩]
        now := s.now + 1 }
  | .batch i n =>
    match s.ops[i]? with
    | none => none
    | some o =>
      match o.progress with
      | .write _ => none
      | .list prefix_ revision range call snapshot =>
        if call.status = .running then
          some { s with
            ops := s.ops.set i (o.scanned cfg prefix_ revision range
              (call.batch (RecordCollector.processor listProcessor cfg) (indexRange range) n
                s.store.db).1 (snapshot.or (some s.store)) s.now)
            now := s.now + 1 }
        else none

/-- 一覧の revision が負でないこと。 -/
def RecorderLabel.nonnegative : RecorderLabel → Bool
  | .list _ _ revision => decide (0 ≤ revision)
  | _ => true

/-- `Update` が revision を持つこと。 -/
def RecorderLabel.revised : RecorderLabel → Bool
  | .write _ op _ => hasRevision op
  | _ => true

/-- 試行が始まるとき、前の試行の書いた record が、まだ鍵の最新であること。 -/
def Recorder.FindsOwn (s : Recorder) : RecorderLabel → Prop
  | .attempt i _ _ _ => ∀ o ∈ s.ops[i]?, ∀ c ∈ o.progress.writes, ∀ r ∈ c.appended,
      ∃ last ∈ s.store.db.getLast c.op.key, last.rev = r.rev
  | _ => True

instance (s : Recorder) : (a : RecorderLabel) → Decidable (s.FindsOwn a)
  | .attempt i _ _ _ => inferInstanceAs (Decidable (∀ o ∈ s.ops[i]?, ∀ c ∈ o.progress.writes,
      ∀ r ∈ c.appended, ∃ last ∈ s.store.db.getLast c.op.key, last.rev = r.rev))
  | .store _ => .isTrue trivial
  | .write _ _ _ => .isTrue trivial
  | .list _ _ _ => .isTrue trivial
  | .batch _ _ => .isTrue trivial

/-! ## 一手の形 -/

variable {cfg : Config} {s s' : Recorder}

/-- 手がすることのすべて。 -/
inductive Recorder.Effect (cfg : Config) (s : Recorder) : RecorderLabel → Recorder → Prop
  | store (a : StoreLabel) (t : Store) (ha : a.isWrite = false) (ht : s.store.step cfg a = some t) :
    Effect cfg s (.store a) { s with store := t, now := s.now + 1 }
  | write (clientId : Int) (op : WriteOp) (uuid : UUID) (hfresh : uuid ∉ s.usedUUIDs) :
    Effect cfg s (.write clientId op uuid)
      { s with
        ops := s.ops ++ [⟨clientId, .write ⟨op, uuid, .running, []⟩, s.now, none⟩]
        usedUUIDs := uuid :: s.usedUUIDs
        now := s.now + 1 }
  | attempt (i : Nat) (uuid : UUID) (v : Nat) (fate : Fate) (o : Recorded) (c : WriteCall)
      (t : Store) (hi : s.ops[i]? = some o) (hc : o.progress = .write c)
      (hrun : c.status = .running) (hfresh : uuid ∉ s.usedUUIDs)
      (ht : s.store.step cfg (.write c.op c.lastWriteUUID uuid v) = some t) :
    Effect cfg s (.attempt i uuid v fate)
      { store := if fate = .notCommitted then s.store else t
        ops := s.ops.set i (o.attempted cfg c uuid fate
          (c.op.tx cfg c.lastWriteUUID uuid v s.store.db) s.now)
        usedUUIDs := uuid :: s.usedUUIDs
        now := s.now + 1 }
  | list (clientId : Int) (prefix_ : Key) (revision : Int) (range : Bytes × Bytes)
      (hr : listRange prefix_ prefix_ = .ok range) :
    Effect cfg s (.list clientId prefix_ revision)
      { s with
        ops := s.ops ++ [⟨clientId, .list prefix_ revision range
          (.start (newRecordCollector revision (newListCollector 0 false))) none, s.now, none⟩]
        now := s.now + 1 }
  | batch (i n : Nat) (o : Recorded) (prefix_ : Key) (revision : Int) (range : Bytes × Bytes)
      (call : ListCall ListCollector) (snapshot : Option Store) (hi : s.ops[i]? = some o)
      (hp : o.progress = .list prefix_ revision range call snapshot)
      (hrun : call.status = .running) :
    Effect cfg s (.batch i n)
      { s with
        ops := s.ops.set i (o.scanned cfg prefix_ revision range
          (call.batch (RecordCollector.processor listProcessor cfg) (indexRange range) n
            s.store.db).1 (snapshot.or (some s.store)) s.now)
        now := s.now + 1 }

theorem Recorder.step_effect {a : RecorderLabel} (hs : s.step cfg a = some s') :
    Recorder.Effect cfg s a s' := by
  cases a with
  | store a =>
    simp only [Recorder.step] at hs
    split at hs
    · cases hs
    · next ha =>
      obtain ⟨t, ht, rfl⟩ := Option.map_eq_some_iff.mp hs
      exact .store a t (by simpa using ha) ht
  | write clientId op uuid =>
    simp only [Recorder.step] at hs
    split at hs
    · cases hs
    · next hfresh =>
      rw [← Option.some.inj hs]
      exact .write clientId op uuid hfresh
  | attempt i uuid v fate =>
    simp only [Recorder.step] at hs
    split at hs
    · cases hs
    · next o hi =>
      split at hs
      · cases hs
      · next c hc =>
        split at hs
        · next hcond =>
          obtain ⟨t, ht, rfl⟩ := Option.map_eq_some_iff.mp hs
          exact .attempt i uuid v fate o c t hi hc hcond.1 hcond.2 ht
        · cases hs
  | list clientId prefix_ revision =>
    simp only [Recorder.step] at hs
    split at hs
    · cases hs
    · next range hr =>
      rw [← Option.some.inj hs]
      exact .list clientId prefix_ revision range hr
  | batch i n =>
    simp only [Recorder.step] at hs
    split at hs
    · cases hs
    · next o hi =>
      split at hs
      · cases hs
      · next prefix_ revision range call snapshot hp =>
        split at hs
        · next hrun =>
          rw [← Option.some.inj hs]
          exact .batch i n o prefix_ revision range call snapshot hi hp hrun
        · cases hs

/-! ## 途中の呼び出し -/

/-- 途中の一覧。 -/
structure Scanning (cfg : Config) (st : Store) (prefix_ : Key) (revision : Int)
    (range : Bytes × Bytes) (call : ListCall ListCollector) (snapshot : Option Store) : Prop where
  range : listRange prefix_ prefix_ = .ok range
  nonneg : 0 ≤ revision
  scan : PinnedScan cfg st prefix_ revision call snapshot

section

variable {st t : Store} {prefix_ : Key} {revision : Int} {range : Bytes × Bytes}
  {call : ListCall ListCollector} {snapshot : Option Store}

theorem Scanning.store (hseq : cfg.useSequentialId = true) (hst : st.Written cfg)
    {a : StoreLabel} (ht : st.step cfg a = some t)
    (h : Scanning cfg st prefix_ revision range call snapshot) :
    Scanning cfg t prefix_ revision range call snapshot :=
  ⟨h.range, h.nonneg, h.scan.store hst ht (sequential_label hseq hst ht)⟩

theorem Scanning.batch (hst : st.Written cfg)
    (h : Scanning cfg st prefix_ revision range call snapshot) (hrun : call.status = .running)
    (n : Nat) :
    Scanning cfg st prefix_ revision range
      (call.batch (RecordCollector.processor listProcessor cfg) (indexRange range) n st.db).1
      (snapshot.or (some st)) :=
  ⟨h.range, h.nonneg, h.scan.batch hst h.range hrun n⟩

/-- 答えのあった一覧。 -/
theorem Scanning.answer (h : Scanning cfg st prefix_ revision range call snapshot) {reply : Reply}
    (hr : listReply cfg revision call = some (some reply)) :
    ∃ t live, snapshot = some t ∧ t.Before cfg st ∧ revision ≤ t.db.getLatestRev cfg ∧
      reply = .listed (t.db.getLatestRev cfg) (live.map (kvOf cfg)) ∧
      SortedBy RevRecord.key live ∧
      ∀ r, r ∈ live ↔ LiveAt 0 (inWindowAt cfg revision t st) r ∧
        inListRange prefix_ prefix_ r.key = true := by
  unfold listReply at hr
  split at hr
  · cases hr
  · next hstop =>
    obtain ⟨t, hsnap, hb, ⟨-, hfail⟩ | ⟨hle, live, c, hok, hkvs, hsorted, hmem⟩⟩ :=
      h.scan.answer hstop
    · rw [hfail] at hr
      cases hr
    · rw [hok] at hr
      cases hr
      exact ⟨t, live, hsnap, hb, hle, by rw [hkvs], hsorted, hmem⟩

/-- 一覧が失敗するのは、最初の batch の時点でまだない revision を求めたときに限る。 -/
theorem Scanning.failed (h : Scanning cfg st prefix_ revision range call snapshot)
    (hr : listReply cfg revision call = some none) :
    ∃ t, snapshot = some t ∧ t.db.getLatestRev cfg < revision := by
  unfold listReply at hr
  split at hr
  · cases hr
  · next hstop =>
    obtain ⟨t, hsnap, -, ⟨hlt, -⟩ | ⟨-, live, c, hok, -⟩⟩ := h.scan.answer hstop
    · exact ⟨t, hsnap, hlt⟩
    · rw [hok] at hr
      cases hr

/-- 終わった一覧の答えは、最初の batch の時点のモデルの応答に当たる。 -/
theorem Scanning.reply (hseq : cfg.useSequentialId = true)
    (h : Scanning cfg st prefix_ revision range call snapshot) {reply : Reply}
    (hr : listReply cfg revision call = some (some reply)) :
    ∃ t, snapshot = some t ∧ ∀ {V : Type} (toV : Bytes → V) (response : Response V),
      Listed toV prefix_ revision t.committed response → Agrees toV response reply := by
  obtain ⟨t, live, hsnap, hb, hle, rfl, hsorted, hmem⟩ := h.answer hr
  have hlatest := (written_sequential hseq hb.written).2
  have hnonneg := h.nonneg
  refine ⟨t, hsnap, fun toV response hl => ?_⟩
  rw [hlatest] at hle ⊢
  by_cases hcur : revision = 0 ∨ revision = t.committed.length + 1
  · -- 窓は、最初の batch の時点の record のすべてである
    have hwindow : inWindowAt cfg revision t st = t.committed := by
      rw [← hb.committed]
      refine List.filter_congr fun r _ => ?_
      rw [hlatest, pinUpTo, pinWindow, upTo, Bool.eq_iff_iff]
      simp only [Bool.and_eq_true, decide_eq_true_eq]
      omega
    rw [hwindow] at hmem
    have hagrees : Agrees toV _ _ := .listed (t.committed.length + 1) (live.map (kvOf cfg))
    rw [List.map_map, List.length_map] at hagrees
    rw [hl.current hcur live hsorted hmem cfg]
    exact hagrees
  · rw [hl.stale (by omega) (by omega)]
    exact .stale _ _

end

/-! ## 不変条件 -/

/-- 一覧なら、途中の一覧の条件を満たし、答えは進み具合から決まる。 -/
def Recorded.Scans (cfg : Config) (st : Store) (o : Recorded) : Prop :=
  ∀ prefix_ revision range call snapshot, o.progress = .list prefix_ revision range call snapshot →
    Scanning cfg st prefix_ revision range call snapshot ∧
      ∀ x, o.returned = some x → listReply cfg revision call = some x.2

/-- 書き込みなら、履歴 `hist` に高々一つの record を書いていて、終わるまで答えはない。 -/
def Recorded.WritesOnce (hist : List RevRecord) (used : List UUID) (o : Recorded) : Prop :=
  ∀ c, o.progress = .write c → c.Inv hist used ∧ hasRevision c.op = true ∧
    (c.status = .running → o.returned = none)

/-- store と一覧の不変条件。 -/
structure Recorder.Inv (cfg : Config) (s : Recorder) : Prop where
  written : s.store.Written cfg
  lists : ∀ o ∈ s.ops, o.Scans cfg s.store
  called : ∀ o ∈ s.ops, o.call ≤ s.now

/-- 書き込みの不変条件。 -/
structure Recorder.WriteInv (s : Recorder) : Prop where
  used : ∀ r ∈ s.store.committed, r.record.writeUUID ∈ s.usedUUIDs
  writes : ∀ o ∈ s.ops, o.WritesOnce s.store.committed s.usedUUIDs

theorem Recorder.init_inv (cfg : Config) : Recorder.init.Inv cfg where
  written := ⟨[], fun _ ha => absurd ha List.not_mem_nil, rfl⟩
  lists := fun _ ho => absurd ho List.not_mem_nil
  called := fun _ ho => absurd ho List.not_mem_nil

theorem Recorder.init_writeInv : Recorder.init.WriteInv where
  used := fun _ hr => absurd hr List.not_mem_nil
  writes := fun _ ho => absurd ho List.not_mem_nil

section

variable {o : Recorded} {c : WriteCall} {st t : Store} {hist new : List RevRecord}
  {used : List UUID} {uuid : UUID} {fate : Fate}

theorem Recorded.Scans.store (hseq : cfg.useSequentialId = true) (hst : st.Written cfg)
    {a : StoreLabel} (ht : st.step cfg a = some t) (h : o.Scans cfg st) : o.Scans cfg t :=
  fun p revision range call snapshot hp =>
    ⟨(h p revision range call snapshot hp).1.store hseq hst ht,
      (h p revision range call snapshot hp).2⟩

theorem Recorded.scans_write (hc : o.progress = .write c) : o.Scans cfg st :=
  fun _ _ _ _ _ hp => by rw [hc] at hp; cases hp

theorem Recorded.writesOnce_list {prefix_ : Key} {revision : Int} {range : Bytes × Bytes}
    {call : ListCall ListCollector} {snapshot : Option Store}
    (hp : o.progress = .list prefix_ revision range call snapshot) : o.WritesOnce hist used :=
  fun _ hc => by rw [hp] at hc; cases hc

/-- ほかの呼び出しが新しい UUID で書いても、書き込みの条件は変わらない。 -/
theorem Recorded.WritesOnce.grow (h : o.WritesOnce hist used) (hfresh : uuid ∉ used)
    (hnew : ∀ r ∈ new, r.record.writeUUID = uuid) :
    o.WritesOnce (hist ++ new) (uuid :: used) := fun c hc => by
  obtain ⟨hinv, hrest⟩ := h c hc
  exact ⟨(hinv.grow fun r hr => hnew r hr ▸ hfresh).use uuid, hrest⟩

theorem attempt_written (hseq : cfg.useSequentialId = true) (hst : st.Written cfg) {a : StoreLabel}
    (ht : st.step cfg a = some t) (fate : Fate) :
    Store.Written cfg (if fate = .notCommitted then st else t) := by
  split
  · exact hst
  · exact written_step hst ht (sequential_label hseq hst ht)

theorem Recorded.Scans.attempt (hseq : cfg.useSequentialId = true) (hst : st.Written cfg)
    {a : StoreLabel} (ht : st.step cfg a = some t) (fate : Fate) (h : o.Scans cfg st) :
    o.Scans cfg (if fate = .notCommitted then st else t) := by
  split
  · exact h
  · exact h.store hseq hst ht

end

/-- 試行の前の条件から、書いた record が鍵の最新であることを得る。 -/
theorem Recorder.FindsOwn.newest_own {i v : Nat} {uuid : UUID} {fate : Fate} {o : Recorded}
    {c : WriteCall} (h : s.Inv cfg) (hw : s.WriteInv) (hok : s.FindsOwn (.attempt i uuid v fate))
    (hi : s.ops[i]? = some o) (hc : o.progress = .write c) :
    ∀ r ∈ c.appended, newest RevRecord.key s.store.committed c.op.key = some r := by
  intro r hr
  have hinv := h.written.inv.1
  obtain ⟨last, hlast, hrev⟩ := hok o hi c (by rw [hc]; exact List.mem_cons_self) r hr
  rw [getLast_eq hinv.tracks.holds] at hlast
  obtain ⟨l, hl, rfl⟩ := Option.map_eq_some_iff.mp hlast
  have hmem := (hw.writes o (List.mem_of_getElem? hi) c hc).1.committed r hr
  rw [hl, hinv.tracks.sorted.eq_of_index_eq (newest_mem hl).1 hmem hrev]

theorem WriteCall.after_running {c : WriteCall} {uuid : UUID} {fate : Fate}
    {out : Except Err TxOut} (h : (c.after uuid fate out).status = .running) :
    attemptReply cfg c.op fate out = none := by
  cases out with
  | error e => cases h
  | ok out =>
    cases fate with
    | committed => cases h
    | unknownCommitted => rfl
    | notCommitted => rfl

/-- 一覧の revision が負でなければ、どの手も store と一覧の不変条件を保つ。 -/
theorem Recorder.inv_step (hseq : cfg.useSequentialId = true) {a : RecorderLabel} (h : s.Inv cfg)
    (hok : a.nonnegative = true) (hs : s.step cfg a = some s') : s'.Inv cfg := by
  have hlater : ∀ o ∈ s.ops, o.call ≤ s.now + 1 := fun o ho => (h.called o ho).trans (Nat.le_succ _)
  cases Recorder.step_effect hs with
  | store a t ha ht =>
    exact ⟨written_step h.written ht (sequential_label hseq h.written ht),
      fun o ho => (h.lists o ho).store hseq h.written ht, hlater⟩
  | write clientId op uuid hfresh =>
    exact ⟨h.written, forall_mem_concat h.lists (Recorded.scans_write rfl),
      forall_mem_concat hlater (Nat.le_succ _)⟩
  | attempt i uuid v fate o c t hi hc hrun hfresh ht =>
    exact ⟨attempt_written hseq h.written ht fate,
      forall_mem_set (fun o' ho' => (h.lists o' ho').attempt hseq h.written ht fate)
        (Recorded.scans_write rfl),
      forall_mem_set hlater (hlater o (List.mem_of_getElem? hi))⟩
  | list clientId prefix_ revision range hr =>
    refine ⟨h.written, forall_mem_concat h.lists ?_, forall_mem_concat hlater (Nat.le_succ _)⟩
    intro p revision' range' call snapshot hp
    cases hp
    exact ⟨⟨hr, of_decide_eq_true hok, .fresh rfl⟩, fun x hx => by cases hx⟩
  | batch i n o prefix_ revision range call snapshot hi hp hrun =>
    have hmem := List.mem_of_getElem? hi
    refine ⟨h.written, forall_mem_set h.lists ?_, forall_mem_set hlater (hlater o hmem)⟩
    intro p revision' range' call' snapshot' hp'
    cases hp'
    refine ⟨(h.lists o hmem _ _ _ _ _ hp).1.batch h.written hrun n, fun x hx => ?_⟩
    obtain ⟨y, hy, rfl⟩ := Option.map_eq_some_iff.mp hx
    exact hy

/-- `Update` が revision を持ち、再試行が自分の record を見つける手は、書き込みの不変条件を保つ。 -/
theorem Recorder.writeInv_step {a : RecorderLabel} (h : s.Inv cfg) (hw : s.WriteInv)
    (hrev : a.revised = true) (hown : s.FindsOwn a) (hs : s.step cfg a = some s') :
    s'.WriteInv := by
  cases Recorder.step_effect hs with
  | store a t ha ht =>
    have hsame := Store.committed_of_not_write ht ha
    exact ⟨by rw [hsame]; exact hw.used, by rw [hsame]; exact hw.writes⟩
  | write clientId op uuid hfresh =>
    refine ⟨fun r hr => List.mem_cons_of_mem _ (hw.used r hr), forall_mem_concat (fun o ho => ?_) ?_⟩
    · have hgrown := (hw.writes o ho).grow hfresh (fun r hr => absurd hr List.not_mem_nil)
      rwa [List.append_nil] at hgrown
    · intro c hc
      cases hc
      exact ⟨WriteCall.start_inv op hw.used hfresh, hrev, fun _ => rfl⟩
  | attempt i uuid v fate o c t hi hc hrun hfresh ht =>
    have hinv := h.written.inv.1
    obtain ⟨hcall, hop, -⟩ := hw.writes o (List.mem_of_getElem? hi) c hc
    have huuid := attemptAppends_uuid cfg hinv.tracks.holds fate c.op c.lastWriteUUID uuid v
    have hcommitted := (attempt_store hinv fate ht).2
    refine ⟨fun r hr => ?_, ?_⟩
    · rw [hcommitted] at hr
      rcases List.mem_append.mp hr with hr | hr
      · exact List.mem_cons_of_mem _ (hw.used r hr)
      · rw [huuid r hr]
        exact List.mem_cons_self
    · rw [hcommitted]
      refine forall_mem_set (fun o' ho' => (hw.writes o' ho').grow hfresh huuid) fun c' hc' => ?_
      cases hc'
      refine ⟨hcall.after hrun hinv.tracks hinv.bounded (Store.step_write ht).1 hw.used hfresh
        (hown.newest_own h hw hi hc) fate, by rw [WriteCall.after_op]; exact hop, fun hr => ?_⟩
      rw [Recorded.attempted, WriteCall.after_running hr]
      rfl
  | list clientId prefix_ revision range hr =>
    exact ⟨hw.used, forall_mem_concat hw.writes (Recorded.writesOnce_list rfl)⟩
  | batch i n o prefix_ revision range call snapshot hi hp hrun =>
    exact ⟨hw.used, forall_mem_set hw.writes (Recorded.writesOnce_list rfl)⟩

/-- どの run でも、一覧の revision が負でなければ、store と一覧の不変条件が成り立つ。 -/
theorem Recorder.inv_run (hseq : cfg.useSequentialId = true) {as : List RecorderLabel}
    (hr : runSteps (Recorder.step cfg) .init as = some s)
    (hlists : ∀ a ∈ as, a.nonnegative = true) : s.Inv cfg :=
  run_invariant_of (fun _ a => a.nonnegative = true) (P := fun s => Recorder.Inv cfg s)
    (fun _ _ _ h hok hs => Recorder.inv_step hseq h hok hs) (Recorder.init_inv cfg)
    (stepsMeet_of_forall hlists) hr

end KubeFdb.Robustness
