import KubeFdb.Properties.Shared

/-!
# batch の一回

`recordCollector` が batch を一回試すと、collector と heap はどう変わるか。

* 失敗した回が残すのは、持ち越した record の印と値だけである（`Leaves`、`leaves_failed`）
* 成功した回の結果は、record を値で持つ collector の結果と対応する（`Matches`、`Agrees`）。持ち越した record の
  印が違ってよいのは、その鍵に chunk がないか、次に読む entry がその鍵のものであるときである
* `processRange` の途中でも同じである（`CallAgrees.failed`、`CallAgrees.batch`）
-/

namespace KubeFdb

open Tuple
open Record (Like)

namespace Shared

/-- 持っている番地。 -/
def addr (r : Option RecordRef) : List Nat := (r.map RecordRef.record).toList

@[simp] theorem addr_none : addr none = [] := rfl

@[simp] theorem addr_some (r : RecordRef) : addr (some r) = [r.record] := rfl

namespace RecordCollector

variable {σ τ : Type} {p : InnerProcessor σ} {q : KubeFdb.InnerProcessor τ} {v : InnerView p q}
  {cfg : Config} {it : IndexIterator} {d d' : RecordCollector σ}

@[simp] theorem flush_heap (d : RecordCollector σ) (key : Key) : (d.flush p key).1.heap = d.heap := by
  unfold RecordCollector.flush
  split
  · rfl
  · split_ifs <;> rfl

/-- 候補を渡した内側の collector が、まだ要ると言うか。 -/
def wants (p : InnerProcessor σ) (d : RecordCollector σ) (e : IndexKey × IndexTuple) : Bool :=
  ({ d with heap := d.heap.alloc (ByKeyAndRevision.parseKV e).record }.flush p
    (ByKeyAndRevision.parseKV e).key).2

theorem batchLoop_cons (n : Nat) (d : RecordCollector σ) (db : Db) (e : IndexKey × IndexTuple)
    (rest : IndexIterator) (last : Option IndexKey) :
    batchLoop (faulty p cfg).toProcessor (n + 1) d db (e :: rest) last =
      if d.wants p e then
        batchLoop (faulty p cfg).toProcessor n (d.next p db (e :: rest)).1 db rest (some e.1)
      else ((d.next p db (e :: rest)).1, db, .ok ⟨some e.1, false⟩) := by
  rw [batchLoop]
  show (if (d.wants p e && true) = true then _ else _) = _
  rw [Bool.and_true]
  rfl

/-! ## 失敗した回 -/

/-- `it` を読んだ回が、失敗した後に残すもの。 -/
structure Leaves (v : InnerView p q) (it : IndexIterator) (d d' : RecordCollector σ) : Prop where
  maxRevision : d'.maxRevision = d.maxRevision
  firstRev : d'.firstRev = d.firstRev
  currentRecord : d'.currentRecord = d.currentRecord
  inner : p.startBatch d'.inner = p.startBatch d.inner
  size : d.heap.size ≤ d'.heap.size
  other : ∀ x < d.heap.size, x ∉ addr d.currentRecord → d'.heap.cell x = d.heap.cell x
  like : ∀ x < d.heap.size, Like (v.strict d.inner) (d'.heap.cell x) (d.heap.cell x)
  /-- 印が下りたなら、その鍵の entry を読んでいる。 -/
  mark : ∀ x < d.heap.size, (d'.heap.cell x).latestForKey = (d.heap.cell x).latestForKey ∨
    ∃ e ∈ it, e.1.key = (d.heap.cell x).key

/-- 回の途中。この回で触る番地は、持ち越したものか、新しいものである。 -/
structure Attempting (v : InnerView p q) (it : IndexIterator) (d d' : RecordCollector σ) : Prop
    extends Leaves v it d d' where
  held : ∀ x ∈ v.batch d'.inner ++ addr d'.batchCurrentRecord,
    x ∈ addr d.currentRecord ∨ d.heap.size ≤ x

theorem attempting_start (v : InnerView p q) (cfg : Config) (it : IndexIterator)
    (d : RecordCollector σ) : Attempting v it d ((faulty p cfg).startBatch d) where
  maxRevision := rfl
  firstRev := rfl
  currentRecord := rfl
  inner := v.startBatch_startBatch d.inner
  size := le_rfl
  other _ _ _ := rfl
  like _ _ := .refl ..
  mark _ _ := Or.inl rfl
  held x hx := by
    rw [show ((faulty p cfg).startBatch d).inner = p.startBatch d.inner from rfl,
      v.batch_startBatch, List.nil_append] at hx
    exact Or.inl hx

/-- 前からあった番地を書き換えない。 -/
theorem Leaves.newCells (hl : Leaves v it d d') {h : Heap Record} (hsize : d'.heap.size ≤ h.size)
    (hcell : ∀ x < d.heap.size, h.cell x = d'.heap.cell x) : Leaves v it d { d' with heap := h } where
  maxRevision := hl.maxRevision
  firstRev := hl.firstRev
  currentRecord := hl.currentRecord
  inner := hl.inner
  size := hl.size.trans hsize
  other x hx hn := (hcell x hx).trans (hl.other x hx hn)
  like x hx := (hcell x hx) ▸ hl.like x hx
  mark x hx := (hcell x hx) ▸ hl.mark x hx

/-- 持ち越していない前の番地は、この回では触らない。 -/
theorem Attempting.not_held (ha : Attempting v it d d') {x : Nat} (hx : x < d.heap.size)
    (hn : x ∉ addr d.currentRecord) : x ∉ v.batch d'.inner ++ addr d'.batchCurrentRecord := by
  intro hheld
  rcases ha.held x hheld with hold | hnew
  · exact hn hold
  · exact absurd hx (not_lt.mpr hnew)

/-- 新しい番地に置く。 -/
theorem Attempting.alloc (ha : Attempting v it d d') (r : Record) :
    Attempting v it d { d' with heap := d'.heap.alloc r } where
  toLeaves := ha.toLeaves.newCells (Nat.le_succ _)
    fun _ hx => Heap.cell_alloc_of_lt (hx.trans_le ha.size)
  held := ha.held

/-- 候補を内側に渡す。 -/
theorem Attempting.deliver (ha : Attempting v it d d') {cur : RecordRef}
    (hcur : d'.batchCurrentRecord = some cur) :
    ∀ x ∈ v.batch (p.next d'.inner cur).1, x ∈ addr d.currentRecord ∨ d.heap.size ≤ x := by
  intro x hx
  refine ha.held x ?_
  rw [hcur]
  exact (v.batch_next d'.inner cur).subset hx

theorem Attempting.flush (ha : Attempting v it d d') (key : Key) :
    Attempting v it d (d'.flush p key).1 := by
  unfold RecordCollector.flush
  split
  · exact ha
  · next cur hcur =>
    split_ifs
    · refine ⟨⟨ha.maxRevision, ha.firstRev, ha.currentRecord, ?_, ha.size, ha.other, ha.like,
        ha.mark⟩, fun x hx => ?_⟩
      · exact (v.startBatch_next d'.inner cur).trans ha.inner
      · rw [addr_none, List.append_nil] at hx
        exact ha.deliver hcur x hx
    · refine ⟨⟨ha.maxRevision, ha.firstRev, ha.currentRecord, ha.inner, ha.size, ha.other, ha.like,
        ha.mark⟩, fun x hx => ?_⟩
      rw [addr_none, List.append_nil] at hx
      exact ha.held x (List.mem_append_left _ hx)
    · exact ha

theorem Attempting.deliverLast (ha : Attempting v it d d') (isLast : Bool) :
    Attempting v it d (d'.deliverLast p isLast) := by
  unfold RecordCollector.deliverLast
  split
  · exact ha
  · next cur hcur =>
    split_ifs
    · refine ⟨⟨ha.maxRevision, ha.firstRev, ha.currentRecord, ?_, ha.size, ha.other, ha.like,
        ha.mark⟩, fun x hx => ?_⟩
      · exact (v.startBatch_next d'.inner cur).trans ha.inner
      · rcases List.mem_append.mp hx with hx | hx
        · exact ha.deliver hcur x hx
        · exact ha.held x (List.mem_append_right _ hx)
    · exact ha

/-- 候補の印を下ろす。候補の鍵の entry を読んでいる。 -/
theorem Attempting.lower (ha : Attempting v it d d') {cur : RecordRef}
    (hcur : d'.batchCurrentRecord = some cur) {e : IndexKey × IndexTuple} (he : e ∈ it)
    (hkey : (d'.heap.cell cur.record).key = e.1.key) :
    Attempting v it d
      { d' with heap := d'.heap.modify cur.record (Record.setLatestForKey false) } := by
  have hcell : ∀ x ≠ cur.record, (d'.heap.modify cur.record (Record.setLatestForKey false)).cell x
      = d'.heap.cell x := fun x hx => Heap.cell_modify_of_ne hx
  refine ⟨⟨ha.maxRevision, ha.firstRev, ha.currentRecord, ha.inner, ha.size,
    fun x hx hn => ?_, fun x hx => ?_, fun x hx => ?_⟩, ha.held⟩
  · have hne : x ≠ cur.record := by
      rintro rfl
      exact ha.not_held hx hn (by rw [hcur]; simp)
    exact (hcell x hne).trans (ha.other x hx hn)
  · by_cases hxc : x = cur.record
    · rw [hxc, Heap.cell_modify_self]
      exact ((Like.refl _ (d'.heap.cell cur.record)).mark _ _).trans (ha.like _ (hxc ▸ hx))
    · exact (hcell x hxc) ▸ ha.like x hx
  · by_cases hxc : x = cur.record
    · refine Or.inr ⟨e, he, ?_⟩
      rw [← (ha.like x hx).key_eq, hxc]
      exact hkey.symm
    · exact (hcell x hxc) ▸ ha.mark x hx

/-- 読んだ record を候補にするか、候補の印を下ろす。 -/
theorem Attempting.accept (ha : Attempting v it d d') {r : RecordRef} (hr : d.heap.size ≤ r.record)
    {e : IndexKey × IndexTuple} (he : e ∈ it) (hkey : (r.load d'.heap).key = e.1.key) :
    Attempting v it d (d'.accept r) := by
  unfold RecordCollector.accept
  split_ifs
  · have hl := ha.toLeaves.newCells (h := d'.heap.modify r.record (Record.setLatestForKey true))
      le_rfl fun x hx => Heap.cell_modify_of_ne (hx.trans_le hr).ne
    refine ⟨{ hl with }, fun x hx => ?_⟩
    rcases List.mem_append.mp hx with hx | hx
    · exact ha.held x (List.mem_append_left _ hx)
    · rw [addr_some, List.mem_singleton] at hx
      exact Or.inr (hx ▸ hr)
  · split
    · exact ha
    · next cur hcur =>
      split_ifs with hsame
      · exact ha.lower hcur he (hsame.trans hkey)
      · exact ha

theorem Attempting.next (ha : Attempting v it d d') (db : Db) {it' : IndexIterator}
    (hit : it' ⊆ it) : Attempting v it d (d'.next p db it').1 := by
  cases it' with
  | nil => exact ha
  | cons e rest =>
    have ha₁ := (ha.alloc (ByKeyAndRevision.parseKV e).record).flush
      (ByKeyAndRevision.parseKV e).key
    refine ha₁.accept ha.size (hit List.mem_cons_self) ?_
    rw [RecordRef.load, flush_heap]
    show ((d'.heap.alloc (ByKeyAndRevision.parseKV e).record).cell d'.heap.size).key = _
    rw [Heap.cell_alloc_size]
    rfl

theorem Attempting.batchLoop (db : Db) : ∀ {n : Nat} {d' : RecordCollector σ} {it' : IndexIterator}
    {last : Option IndexKey}, Attempting v it d d' → it' ⊆ it →
    Attempting v it d (KubeFdb.batchLoop (faulty p cfg).toProcessor n d' db it' last).1
  | 0, _, _, _, ha, _ => ha
  | n + 1, d', it', last, ha, hit => by
    have ha₁ := ha.next db hit
    cases it' with
    | nil => exact ha₁
    | cons e rest =>
      rw [batchLoop_cons]
      split_ifs
      · exact Attempting.batchLoop db ha₁ fun x hx => hit (List.mem_cons_of_mem _ hx)
      · exact ha₁

/-- 内側の `endBatch` が値を入れた後。 -/
theorem Attempting.leaves_kept (ha : Attempting v it d d') {inner : σ} {h : Heap Record}
    (hin : p.startBatch inner = p.startBatch d'.inner)
    (hk : Kept (v.strict d'.inner) (v.batch d'.inner) d'.heap h) (batchRev : Int) :
    Leaves v it d { d' with inner := inner, heap := h, batchRev := batchRev } := by
  have hstrict : v.strict d'.inner = v.strict d.inner := by
    rw [← v.strict_startBatch d'.inner, ha.inner, v.strict_startBatch]
  refine ⟨ha.maxRevision, ha.firstRev, ha.currentRecord, hin.trans ha.inner,
    ha.size.trans hk.size, fun x hx hn => ?_, fun x hx => ?_, fun x hx => ?_⟩
  · have hnot : x ∉ v.batch d'.inner := fun hb => ha.not_held hx hn (List.mem_append_left _ hb)
    exact (hk.other x (hx.trans_le ha.size) hnot).trans (ha.other x hx hn)
  · exact (hstrict ▸ hk.like x (hx.trans_le ha.size)).trans (ha.like x hx)
  · show (h.cell x).latestForKey = _ ∨ _
    rw [hk.mark x (hx.trans_le ha.size)]
    exact ha.mark x hx

theorem Attempting.leaves_endBatch (ha : Attempting v it d d') (db : Db) (isLast : Bool) :
    Leaves v it d (d'.endBatch p cfg db isLast).1 := by
  have ha₁ := ha.deliverLast isLast
  have hin := v.startBatch_endBatch (d'.deliverLast p isLast).inner (d'.deliverLast p isLast).heap db
  have hk := v.kept_endBatch (d'.deliverLast p isLast).inner (d'.deliverLast p isLast).heap db
  unfold RecordCollector.endBatch
  simp only
  split
  · next inner h e hend =>
    rw [hend] at hin hk
    exact ha₁.leaves_kept hin hk _
  · next inner h hend =>
    rw [hend] at hin hk
    split_ifs
    · exact ha₁.leaves_kept hin hk _
    · exact ha₁.leaves_kept hin hk _

theorem Attempting.leaves_endFault (ha : Attempting v it d d') (db : Db) (isLast : Bool) :
    ∀ i, Leaves v it d (d'.endFault p cfg db isLast i)
  | 0 => (ha.deliverLast isLast).leaves_kept (v.startBatch_endBatch ..) (v.kept_endBatch ..) _
  | 1 => ha.leaves_endBatch db isLast
  | _ + 2 => (ha.deliverLast isLast).leaves_kept (v.startBatch_endFault ..) (v.kept_endFault ..) _

/-- 失敗した回は、持ち越した record の印と値のほかに何も残さない。 -/
theorem leaves_failed (v : InnerView p q) (cfg : Config) (d : RecordCollector σ) (db : Db)
    (it : IndexIterator) (f : Failure) : Leaves v it d ((faulty p cfg).failed d db it f) := by
  refine Faulty.failed_of (I := Attempting v it d) (fun n => ?_) (fun _ ha => ha.toLeaves)
    (fun _ tr isLast ha => ha.leaves_endBatch tr isLast)
    (fun _ tr isLast i ha => ha.leaves_endFault tr isLast i) f
  exact (attempting_start v cfg it d).batchLoop db (List.Subset.refl _)

/-! ## 成功した回 -/

variable {c : KubeFdb.RecordCollector τ} {db : Db} {P : Key → Prop}

/-- 回の途中の対応。候補の鍵が `P` を満たせば、候補の印は違ってもよい。 -/
structure Matches (v : InnerView p q) (P : Key → Prop) (db : Db) (d : RecordCollector σ)
    (c : KubeFdb.RecordCollector τ) : Prop where
  maxRevision : d.maxRevision = c.maxRevision
  firstRev : d.firstRev = c.firstRev
  inner : v.Rel db d.heap d.inner c.inner
  current : Option.Rel (Carried (v.strict d.inner) P d.heap) d.batchCurrentRecord
    c.batchCurrentRecord
  nodup : (v.base d.inner ++ v.batch d.inner ++ addr d.batchCurrentRecord).Nodup
  bound : ∀ x ∈ v.base d.inner ++ v.batch d.inner ++ addr d.batchCurrentRecord, x < d.heap.size

/-- 候補の番地が変わらなければ、対応は変わらない。 -/
theorem carried_congr {strict : Bool} {h h' : Heap Record} : ∀ {o : Option RecordRef}
    {o' : Option RevRecord}, Option.Rel (Carried strict P h) o o' →
    (∀ x ∈ addr o, h'.cell x = h.cell x) → Option.Rel (Carried strict P h') o o'
  | _, _, .some hc, heq => .some (hc.congr (heq _ (List.mem_singleton_self _)))
  | _, _, .none, _ => .none

theorem Carried.imp {strict : Bool} {P Q : Key → Prop} {h : Heap Record} {ref : RecordRef}
    {r : RevRecord} (hc : Carried strict P h ref r) (hPQ : P r.key → Q r.key) :
    Carried strict Q h ref r :=
  ⟨hc.rev, hc.like, hc.mark.imp_right hPQ⟩

theorem Matches.imp {Q : Key → Prop} (hm : Matches v P db d c) (hPQ : ∀ k, P k → Q k) :
    Matches v Q db d c :=
  { hm with current := optionRel_imp hm.current fun _ _ _ _ hc => Carried.imp hc (hPQ _) }

/-- 新しい番地に置いても、対応は変わらない。 -/
theorem Matches.alloc (hm : Matches v P db d c) (r : Record) :
    Matches v P db { d with heap := d.heap.alloc r } c := by
  have hcell : ∀ x ∈ v.base d.inner ++ v.batch d.inner ++ addr d.batchCurrentRecord,
      (d.heap.alloc r).cell x = d.heap.cell x := fun x hx => Heap.cell_alloc_of_lt (hm.bound x hx)
  refine ⟨hm.maxRevision, hm.firstRev, ?_, ?_, hm.nodup,
    fun x hx => (hm.bound x hx).trans (Nat.lt_succ_self _)⟩
  · exact v.congr hm.inner fun x hx => hcell x (List.mem_append_left _ hx)
  · exact carried_congr hm.current fun x hx => hcell x (List.mem_append_right _ hx)

theorem Matches.current_cases (hm : Matches v P db d c) :
    (d.batchCurrentRecord = none ∧ c.batchCurrentRecord = none) ∨
    ∃ ref r, d.batchCurrentRecord = some ref ∧ c.batchCurrentRecord = some r ∧
      Carried (v.strict d.inner) P d.heap ref r := by
  have hcur := hm.current
  revert hcur
  generalize d.batchCurrentRecord = o
  generalize c.batchCurrentRecord = o'
  rintro (hc | _)
  · exact Or.inr ⟨_, _, rfl, rfl, hc⟩
  · exact Or.inl ⟨rfl, rfl⟩

/-- record を受け取った後に持つ番地。 -/
theorem held_next (v : InnerView p q) (a : σ) (ref : RecordRef) :
    (v.base (p.next a ref).1 ++ v.batch (p.next a ref).1).Sublist
      (v.base a ++ v.batch a ++ [ref.record]) := by
  have hbase : v.base (p.next a ref).1 = v.base a := by
    rw [← v.base_startBatch, v.startBatch_next, v.base_startBatch]
  rw [hbase, List.append_assoc]
  exact (v.batch_next a ref).append_left _

/-- 候補を渡しても、持つ番地は増えない。 -/
theorem held_flush (v : InnerView p q) (d : RecordCollector σ) (key : Key) :
    v.base (d.flush p key).1.inner ++ v.batch (d.flush p key).1.inner ⊆
      v.base d.inner ++ v.batch d.inner ++ addr d.batchCurrentRecord := by
  unfold RecordCollector.flush
  split
  · exact List.subset_append_left ..
  · next cur hcur =>
    split_ifs
    · rw [hcur]
      exact (held_next v d.inner cur).subset
    · exact List.subset_append_left ..
    · exact List.subset_append_left ..

/-- 候補を内側に渡す。印が違うなら、その鍵に chunk はない。 -/
theorem Matches.deliver (hm : Matches v P db d c) {ref : RecordRef} {r : RevRecord}
    (hd : d.batchCurrentRecord = some ref) (hc : Carried (v.strict d.inner) P d.heap ref r)
    (hP : P r.key → NoChunks db.byKeyCurrent r.key) :
    (v.Rel db d.heap (p.next d.inner ref).1 (q.next c.inner r).1 ∧
      (p.next d.inner ref).2 = (q.next c.inner r).2) ∧
    (v.base (p.next d.inner ref).1 ++ v.batch (p.next d.inner ref).1).Nodup ∧
    ∀ x ∈ v.base (p.next d.inner ref).1 ++ v.batch (p.next d.inner ref).1, x < d.heap.size := by
  have hsub := held_next v d.inner ref
  rw [show [ref.record] = addr d.batchCurrentRecord by rw [hd]; rfl] at hsub
  exact ⟨v.next hm.inner (Carried.imp hc hP), hsub.nodup hm.nodup,
    fun x hx => hm.bound x (hsub.subset hx)⟩

/-- 候補を捨てる。 -/
theorem Matches.drop (hm : Matches v P db d c) :
    Matches v P db { d with batchCurrentRecord := none } { c with batchCurrentRecord := none } := by
  have hsub : (v.base d.inner ++ v.batch d.inner ++ addr none).Sublist
      (v.base d.inner ++ v.batch d.inner ++ addr d.batchCurrentRecord) :=
    (List.nil_sublist _).append_left _
  exact ⟨hm.maxRevision, hm.firstRev, hm.inner, .none, hsub.nodup hm.nodup,
    fun x hx => hm.bound x (hsub.subset hx)⟩

theorem Matches.flush (hm : Matches v P db d c) (key : Key)
    (hP : ∀ k, P k → k ≠ key → NoChunks db.byKeyCurrent k) :
    Matches v P db (d.flush p key).1 (c.flush q key).1 ∧
      (d.flush p key).2 = (c.flush q key).2 ∧
      ∀ r ∈ (c.flush q key).1.batchCurrentRecord, r.key = key := by
  unfold RecordCollector.flush KubeFdb.RecordCollector.flush
  rcases hm.current_cases with ⟨hd, hc⟩ | ⟨ref, r, hd, hc, hcar⟩
  · rw [hd, hc]
    refine ⟨hm, rfl, fun r hr => ?_⟩
    rw [hc] at hr
    cases hr
  · have hkey : (ref.load d.heap).key = r.key := hcar.like.key_eq
    have hdel : (ref.load d.heap).record.isDelete = r.record.isDelete := hcar.like.isDelete_eq
    rw [hd, hc]
    simp only [hkey, hdel]
    split_ifs with hne hlive
    · obtain ⟨⟨hrel, hmore⟩, hnd, hlt⟩ := hm.deliver hd hcar fun hp => hP _ hp hne
      refine ⟨⟨hm.maxRevision, hm.firstRev, hrel, .none, ?_, ?_⟩, hmore, fun r hr => by cases hr⟩
      · rw [addr_none, List.append_nil]
        exact hnd
      · rw [addr_none, List.append_nil]
        exact hlt
    · exact ⟨hm.drop, rfl, fun r hr => by cases hr⟩
    · refine ⟨hm, rfl, fun r' hr' => ?_⟩
      rw [hc] at hr'
      cases hr'
      exact not_not.mp hne

/-- 一つの番地だけを書き換えても、内側の対応は変わらない。 -/
theorem Matches.modify_inner (hm : Matches v P db d c) {x : Nat} (f : Record → Record)
    (hx : x ∉ v.base d.inner ++ v.batch d.inner) :
    v.Rel db (d.heap.modify x f) d.inner c.inner :=
  v.congr hm.inner fun _ hy => Heap.cell_modify_of_ne fun he => hx (he ▸ hy)

/-- 窓の中の record は、印を立てて候補になる。 -/
theorem Matches.take (hm : Matches v P db d c) {ref : RecordRef} {r : RevRecord}
    (hrev : ref.rev = r.rev) (hcell : d.heap.cell ref.record = r.record)
    (hfresh : ref.record ∉ v.base d.inner ++ v.batch d.inner) (hlt : ref.record < d.heap.size) :
    Matches v (fun _ => False) db
      { d with
        heap := d.heap.modify ref.record (Record.setLatestForKey true)
        batchCurrentRecord := some ref }
      { c with
        batchCurrentRecord := some { r with record := { r.record with latestForKey := true } } } := by
  have hinner := List.nodup_append'.mp hm.nodup
  refine ⟨hm.maxRevision, hm.firstRev, ?_, .some ⟨hrev, ?_, Or.inl ?_⟩, ?_, fun x hx => ?_⟩
  · exact hm.modify_inner _ hfresh
  · show Like _ ((d.heap.modify _ _).cell _) _
    rw [Heap.cell_modify_self, hcell]
    exact .refl ..
  · show ((d.heap.modify _ _).cell _).latestForKey = _
    rw [Heap.cell_modify_self]
    rfl
  · refine List.nodup_append'.mpr ⟨hinner.1, List.nodup_singleton _, fun x hx hx' => ?_⟩
    exact hfresh (List.mem_singleton.mp hx' ▸ hx)
  · rcases List.mem_append.mp hx with hx | hx
    · exact hm.bound x (List.mem_append_left _ hx)
    · rw [List.mem_singleton.mp hx]
      exact hlt

/-- 窓の外の record は、候補の印を下ろす。 -/
theorem Matches.unmark (hm : Matches v P db d c) {ref : RecordRef} {r : RevRecord}
    (hd : d.batchCurrentRecord = some ref)
    (hcar : Carried (v.strict d.inner) P d.heap ref r) :
    Matches v (fun _ => False) db
      { d with heap := d.heap.modify ref.record (Record.setLatestForKey false) }
      { c with
        batchCurrentRecord := some { r with record := { r.record with latestForKey := false } } } := by
  have hfresh : ref.record ∉ v.base d.inner ++ v.batch d.inner := fun hx => by
    refine (List.nodup_append'.mp hm.nodup).2.2 hx ?_
    rw [hd]
    exact List.mem_singleton_self _
  refine ⟨hm.maxRevision, hm.firstRev, ?_, ?_, hm.nodup, hm.bound⟩
  · exact hm.modify_inner _ hfresh
  · rw [show ({ d with heap := _ } : RecordCollector σ).batchCurrentRecord = some ref from hd]
    refine .some ⟨hcar.rev, ?_, Or.inl ?_⟩
    · show Like _ ((d.heap.modify _ _).cell _) _
      rw [Heap.cell_modify_self]
      exact hcar.like.mark _ _
    · show ((d.heap.modify _ _).cell _).latestForKey = _
      rw [Heap.cell_modify_self]
      rfl

/-- 読んだ record を受け取った後は、候補の印も同じである。 -/
theorem Matches.accept (hm : Matches v P db d c) {ref : RecordRef} {r : RevRecord}
    (hrev : ref.rev = r.rev) (hcell : d.heap.cell ref.record = r.record)
    (hfresh : ref.record ∉ v.base d.inner ++ v.batch d.inner) (hlt : ref.record < d.heap.size)
    (hkeys : ∀ r' ∈ c.batchCurrentRecord, r'.key = r.key) :
    Matches v (fun _ => False) db (d.accept ref) (c.accept r) ∧
      ∀ r' ∈ (c.accept r).batchCurrentRecord, r'.key = r.key := by
  have hwin : d.inWindow ref.rev = c.inWindow r.rev := by
    rw [RecordCollector.inWindow, KubeFdb.RecordCollector.inWindow, hm.maxRevision, hm.firstRev, hrev]
  unfold RecordCollector.accept KubeFdb.RecordCollector.accept
  rw [hwin]
  split_ifs
  · exact ⟨hm.take hrev hcell hfresh hlt, fun r' hr' => by cases hr'; rfl⟩
  · rcases hm.current_cases with ⟨hd, hc⟩ | ⟨cur, cur', hd, hc, hcar⟩
    · simp only [hd, hc]
      refine ⟨{ hm with current := ?_ }, fun r' hr' => by cases hr'⟩
      rw [hd, hc]
      exact .none
    · have hkey : cur'.key = r.key := hkeys cur' hc
      have hsame : (cur.load d.heap).key = (ref.load d.heap).key := by
        rw [RevRecord.key, RecordRef.load, RevRecord.key, RecordRef.load, hcell, hcar.like.key_eq]
        exact hkey
      simp only [hd, hc]
      rw [if_pos hsame, if_pos hkey, ← hd]
      exact ⟨hm.unmark hd hcar, fun r' hr' => by cases hr'; exact hkey⟩

/-- `next` の後は、候補の印も同じである。 -/
theorem Matches.next (hm : Matches v P db d c) (e : IndexKey × IndexTuple) (rest : IndexIterator)
    (hP : ∀ k, P k → k ≠ e.1.key → NoChunks db.byKeyCurrent k) :
    Matches v (fun _ => False) db (d.next p db (e :: rest)).1 (c.next q db (e :: rest)).1 ∧
      d.wants p e = (c.flush q e.1.key).2 ∧
      ∀ r ∈ (c.next q db (e :: rest)).1.batchCurrentRecord, r.key = e.1.key := by
  obtain ⟨hm₁, hwants, hkeys⟩ := (hm.alloc (ByKeyAndRevision.parseKV e).record).flush e.1.key hP
  have hfresh := held_flush v { d with heap := d.heap.alloc (ByKeyAndRevision.parseKV e).record }
    e.1.key
  obtain ⟨hm₂, hkeys₂⟩ := hm₁.accept
    (show (⟨e.1.rev, d.heap.size⟩ : RecordRef).rev = (ByKeyAndRevision.parseKV e).rev from rfl)
    (by rw [flush_heap]; exact Heap.cell_alloc_size)
    (fun hx => absurd (hm.bound _ (hfresh hx)) (lt_irrefl _))
    (by rw [flush_heap]; exact Nat.lt_succ_self _) hkeys
  exact ⟨hm₂, hwants, hkeys₂⟩

theorem pure_batchLoop_cons (n : Nat) (c : KubeFdb.RecordCollector τ) (db : Db)
    (e : IndexKey × IndexTuple) (rest : IndexIterator) (last : Option IndexKey) :
    batchLoop (KubeFdb.RecordCollector.processor q cfg) (n + 1) c db (e :: rest) last =
      if (c.flush q e.1.key).2 then
        batchLoop (KubeFdb.RecordCollector.processor q cfg) n (c.next q db (e :: rest)).1 db rest
          (some e.1)
      else ((c.next q db (e :: rest)).1, db, .ok ⟨some e.1, false⟩) := by
  rw [batchLoop]
  show (if ((c.flush q e.1.key).2 && true) = true then _ else _) = _
  rw [Bool.and_true]
  rfl

/-- 候補の鍵は、最後に読んだ entry の鍵である。 -/
def Begins (Q : Key → Prop) (c : KubeFdb.RecordCollector τ) (last : Option IndexKey) : Prop :=
  ∀ r ∈ c.batchCurrentRecord, ∃ b ∈ last, b.key = r.key ∧ Q b.key

variable {Q : Key → Prop}

theorem begins_next {e : IndexKey × IndexTuple} (hQ : Q e.1.key)
    (hkeys : ∀ r ∈ c.batchCurrentRecord, r.key = e.1.key) : Begins Q c (some e.1) :=
  fun r hr => ⟨e.1, rfl, (hkeys r hr).symm, hQ⟩

/-- 印の揃った二つの collector は、同じように読み進む。 -/
theorem Matches.batchLoop (cfg : Config) : ∀ (n : Nat) {d : RecordCollector σ}
    {c : KubeFdb.RecordCollector τ} {it : IndexIterator} {last : Option IndexKey},
    Matches v (fun _ => False) db d c → Begins Q c last → (∀ e ∈ it, Q e.1.key) →
    ∃ d' c' res, KubeFdb.batchLoop (faulty p cfg).toProcessor n d db it last = (d', db, .ok res) ∧
      KubeFdb.batchLoop (KubeFdb.RecordCollector.processor q cfg) n c db it last
        = (c', db, .ok res) ∧
      Matches v (fun _ => False) db d' c' ∧
      (res.collectorNeedsMore = true → Begins Q c' res.lastReadKey)
  | 0, d, c, it, last, hm, hb, _ => ⟨d, c, _, rfl, rfl, hm, fun _ => hb⟩
  | n + 1, d, c, [], last, hm, hb, _ => ⟨d, c, ⟨none, false⟩, rfl, rfl, hm, fun h => by cases h⟩
  | n + 1, d, c, e :: rest, last, hm, hb, hQ => by
    obtain ⟨hm₁, hwants, hkeys⟩ := hm.next e rest fun _ hf => hf.elim
    rw [batchLoop_cons, pure_batchLoop_cons, hwants]
    split_ifs
    · exact Matches.batchLoop cfg n hm₁ (begins_next (hQ e List.mem_cons_self) hkeys)
        fun e' he' => hQ e' (List.mem_cons_of_mem _ he')
    · exact ⟨_, _, _, rfl, rfl, hm₁, fun h => by cases h⟩

/-- 持ち越した候補の印が違っても、その鍵に chunk がないか、次に読む entry がその鍵のものなら、同じように
読み進む。 -/
theorem Matches.firstLoop (cfg : Config) (n : Nat) (hm : Matches v P db d c)
    (hP : ∀ k, P k → NoChunks db.byKeyCurrent k ∨ ∃ e ∈ it.head?, e.1.key = k)
    (hQ : ∀ e ∈ it, Q e.1.key) :
    ∃ d' c' res,
      KubeFdb.batchLoop (faulty p cfg).toProcessor (n + 1) d db it none = (d', db, .ok res) ∧
      KubeFdb.batchLoop (KubeFdb.RecordCollector.processor q cfg) (n + 1) c db it none
        = (c', db, .ok res) ∧
      Matches v (NoChunks db.byKeyCurrent) db d' c' ∧
      (res.collectorNeedsMore = true →
        Matches v (fun _ => False) db d' c' ∧ Begins Q c' res.lastReadKey) := by
  cases it with
  | nil =>
    refine ⟨d, c, ⟨none, false⟩, rfl, rfl, hm.imp fun k hk => ?_, fun h => by cases h⟩
    rcases hP k hk with hn | ⟨e, he, -⟩
    · exact hn
    · cases he
  | cons e rest =>
    obtain ⟨hm₁, hwants, hkeys⟩ := hm.next e rest fun k hk hne => by
      rcases hP k hk with hn | ⟨e', he', hk'⟩
      · exact hn
      · cases he'
        exact absurd hk'.symm hne
    rw [batchLoop_cons, pure_batchLoop_cons, hwants]
    split_ifs
    · obtain ⟨d', c', res, h1, h2, hm₂, hb⟩ := hm₁.batchLoop cfg n
        (begins_next (hQ e List.mem_cons_self) hkeys)
        fun e' he' => hQ e' (List.mem_cons_of_mem _ he')
      exact ⟨d', c', res, h1, h2, hm₂.imp fun _ hf => hf.elim, fun h => ⟨hm₂, hb h⟩⟩
    · exact ⟨_, _, _, rfl, rfl, hm₁.imp fun _ hf => hf.elim, fun h => by cases h⟩

/-! ## batch の間 -/

/-- batch の間の対応。 -/
structure Agrees (v : InnerView p q) (P : Key → Prop) (d : RecordCollector σ)
    (c : KubeFdb.RecordCollector τ) : Prop where
  maxRevision : d.maxRevision = c.maxRevision
  firstRev : d.firstRev = c.firstRev
  inner : ∀ db, v.Rel db d.heap (p.startBatch d.inner) (q.startBatch c.inner)
  current : Option.Rel (Carried (v.strict d.inner) P d.heap) d.currentRecord c.currentRecord
  nodup : (v.base d.inner ++ addr d.currentRecord).Nodup
  bound : ∀ x ∈ v.base d.inner ++ addr d.currentRecord, x < d.heap.size

theorem Agrees.imp {P' : Key → Prop} (ha : Agrees v P d c) (hP : ∀ k, P k → P' k) : Agrees v P' d c :=
  { ha with current := optionRel_imp ha.current fun _ _ _ _ hc => Carried.imp hc (hP _) }

theorem Agrees.startBatch (ha : Agrees v P d c) (cfg : Config) (db : Db) :
    Matches v P db ((faulty p cfg).startBatch d)
      ((KubeFdb.RecordCollector.processor q cfg).startBatch c) := by
  have hheld : v.base (p.startBatch d.inner) ++ v.batch (p.startBatch d.inner)
      ++ addr d.currentRecord = v.base d.inner ++ addr d.currentRecord := by
    rw [v.base_startBatch, v.batch_startBatch, List.append_nil]
  refine ⟨ha.maxRevision, ha.firstRev, ha.inner db, ?_, ?_, ?_⟩
  · show Option.Rel (Carried (v.strict (p.startBatch d.inner)) P d.heap) d.currentRecord _
    rw [v.strict_startBatch]
    exact ha.current
  · exact hheld ▸ ha.nodup
  · exact hheld ▸ ha.bound

/-- 失敗した回の後も、印のほかは対応する。印が違ってよいのは、失敗した回が鍵の entry を読んでいるときである。 -/
theorem Agrees.leaves (ha : Agrees v P d c) (hl : Leaves v it d d') :
    Agrees v (fun k => P k ∨ ∃ e ∈ it, e.1.key = k) d' c := by
  have hbase : v.base d'.inner = v.base d.inner := by
    rw [← v.base_startBatch, hl.inner, v.base_startBatch]
  have hstrict : v.strict d'.inner = v.strict d.inner := by
    rw [← v.strict_startBatch, hl.inner, v.strict_startBatch]
  have hheld : v.base d'.inner ++ addr d'.currentRecord = v.base d.inner ++ addr d.currentRecord := by
    rw [hbase, hl.currentRecord]
  refine ⟨hl.maxRevision.trans ha.maxRevision, hl.firstRev.trans ha.firstRev, fun db => ?_, ?_,
    hheld ▸ ha.nodup, fun x hx => (ha.bound x (hheld ▸ hx)).trans_le hl.size⟩
  · rw [hl.inner]
    refine v.congr (ha.inner db) fun x hx => ?_
    rw [v.base_startBatch, v.batch_startBatch, List.append_nil] at hx
    exact hl.other x (ha.bound x (List.mem_append_left _ hx))
      fun hx' => (List.nodup_append'.mp ha.nodup).2.2 hx hx'
  · rw [hstrict, hl.currentRecord]
    refine optionRel_imp ha.current fun ref href r _ hc => ?_
    have hlt : ref.record < d.heap.size := ha.bound _ (List.mem_append_right _ (by
      rw [show d.currentRecord = some ref from href]
      exact List.mem_singleton_self _))
    refine ⟨hc.rev, (hl.like _ hlt).trans hc.like, ?_⟩
    rcases hl.mark _ hlt with hmark | ⟨e, he, hk⟩
    · rw [hmark]
      exact hc.mark.imp_right Or.inl
    · exact Or.inr (Or.inr ⟨e, he, hk.trans hc.like.key_eq⟩)

/-- 最後の候補を渡した後。 -/
theorem Matches.deliverLast (hm : Matches v (NoChunks db.byKeyCurrent) db d c) (isLast : Bool) :
    v.Rel db (d.deliverLast p isLast).heap (d.deliverLast p isLast).inner
        (c.deliverLast q isLast).inner ∧
      (v.base (d.deliverLast p isLast).inner ++ v.batch (d.deliverLast p isLast).inner).Nodup ∧
      ∀ x ∈ v.base (d.deliverLast p isLast).inner ++ v.batch (d.deliverLast p isLast).inner,
        x < (d.deliverLast p isLast).heap.size := by
  have hsame : v.Rel db d.heap d.inner c.inner ∧ (v.base d.inner ++ v.batch d.inner).Nodup ∧
      ∀ x ∈ v.base d.inner ++ v.batch d.inner, x < d.heap.size :=
    ⟨hm.inner, (List.nodup_append'.mp hm.nodup).1,
      fun x hx => hm.bound x (List.mem_append_left _ hx)⟩
  unfold RecordCollector.deliverLast KubeFdb.RecordCollector.deliverLast
  rcases hm.current_cases with ⟨hd, hc⟩ | ⟨ref, r, hd, hc, hcar⟩
  · simp only [hd, hc]
    exact hsame
  · have hdel : (ref.load d.heap).record.isDelete = r.record.isDelete := hcar.like.isDelete_eq
    simp only [hd, hc, hdel]
    split_ifs
    · obtain ⟨⟨hrel, -⟩, hnd, hlt⟩ := hm.deliver hd hcar id
      exact ⟨hrel, hnd, hlt⟩
    · exact hsame

/-- 二つの collector の `endBatch` は、同じ結果を返す。 -/
theorem Matches.endBatch_result (cfg : Config) (hm : Matches v (NoChunks db.byKeyCurrent) db d c)
    (isLast : Bool) :
    (d.endBatch p cfg db isLast).2.2 = (c.endBatch q cfg db isLast).2.2 := by
  obtain ⟨hrel, hnd, hlt⟩ := hm.deliverLast isLast
  obtain ⟨hres, -⟩ := v.finish hrel hnd hlt
  have hmax : (d.deliverLast p isLast).maxRevision = (c.deliverLast q isLast).maxRevision := by
    unfold RecordCollector.deliverLast KubeFdb.RecordCollector.deliverLast
    rcases hm.current_cases with ⟨hd, hc⟩ | ⟨ref, r, hd, hc, -⟩
    · simp only [hd, hc]
      exact hm.maxRevision
    · simp only [hd, hc]
      split_ifs <;> exact hm.maxRevision
  unfold RecordCollector.endBatch KubeFdb.RecordCollector.endBatch
  simp only
  generalize p.endBatch (d.deliverLast p isLast).inner (d.deliverLast p isLast).heap db = out at hres ⊢
  generalize q.endBatch (c.deliverLast q isLast).inner db = out' at hres ⊢
  obtain ⟨inner, h, res⟩ := out
  obtain ⟨inner', res'⟩ := out'
  obtain rfl : res = res' := hres
  cases res with
  | error e => rfl
  | ok u =>
    simp only [hmax]
    split_ifs <;> rfl

/-- `endBatch` は何も書かない。 -/
theorem endBatch_eq (isLast : Bool) : d.endBatch p cfg db isLast =
    ((d.endBatch p cfg db isLast).1, db, (d.endBatch p cfg db isLast).2.2) := by
  unfold RecordCollector.endBatch
  simp only
  split
  · rfl
  · split_ifs <;> rfl

theorem pure_endBatch_eq (isLast : Bool) : c.endBatch q cfg db isLast =
    ((c.endBatch q cfg db isLast).1, db, (c.endBatch q cfg db isLast).2.2) := by
  unfold KubeFdb.RecordCollector.endBatch
  simp only
  split
  · rfl
  · split_ifs <;> rfl

theorem endBatch_ok {isLast : Bool} (hok : (d.endBatch p cfg db isLast).2.2 = .ok ()) :
    (d.endBatch p cfg db isLast).1 =
      { d.deliverLast p isLast with
        inner := (p.endBatch (d.deliverLast p isLast).inner (d.deliverLast p isLast).heap db).1
        heap := (p.endBatch (d.deliverLast p isLast).inner (d.deliverLast p isLast).heap db).2.1
        batchRev := db.getLatestRev cfg } := by
  unfold RecordCollector.endBatch at hok ⊢
  simp only at hok ⊢
  split at hok
  · cases hok
  · next inner h hend =>
    rw [hend]
    simp only
    split_ifs <;> rfl

theorem pure_endBatch_ok {isLast : Bool} (hok : (c.endBatch q cfg db isLast).2.2 = .ok ()) :
    (q.endBatch (c.deliverLast q isLast).inner db).2 = .ok () ∧
    (c.endBatch q cfg db isLast).1 =
      { c.deliverLast q isLast with
        inner := (q.endBatch (c.deliverLast q isLast).inner db).1
        batchRev := db.getLatestRev cfg } := by
  unfold KubeFdb.RecordCollector.endBatch at hok ⊢
  simp only at hok ⊢
  split at hok
  · cases hok
  · next inner hend =>
    rw [hend]
    simp only
    split_ifs <;> exact ⟨trivial, rfl⟩

@[simp] theorem deliverLast_firstRev (isLast : Bool) :
    (d.deliverLast p isLast).firstRev = d.firstRev := by
  unfold RecordCollector.deliverLast
  split
  · rfl
  · split_ifs <;> rfl

@[simp] theorem pure_deliverLast_firstRev (isLast : Bool) :
    (c.deliverLast q isLast).firstRev = c.firstRev := by
  unfold KubeFdb.RecordCollector.deliverLast
  split
  · rfl
  · split_ifs <;> rfl

theorem deliverLast_false : d.deliverLast p false = d := by
  unfold RecordCollector.deliverLast
  split <;> rfl

theorem pure_deliverLast_false : c.deliverLast q false = c := by
  unfold KubeFdb.RecordCollector.deliverLast
  split <;> rfl

/-- 終わった batch の後の、答えになる部分の対応。 -/
structure Answers (v : InnerView p q) (d : RecordCollector σ) (c : KubeFdb.RecordCollector τ) :
    Prop where
  firstRev : d.firstRev = c.firstRev
  inner : ∀ db, v.Rel db d.heap (p.startBatch d.inner) (q.startBatch c.inner)

theorem Matches.endBatch_answers (cfg : Config)
    (hm : Matches v (NoChunks db.byKeyCurrent) db d c) {isLast : Bool}
    (hok : (c.endBatch q cfg db isLast).2.2 = .ok ()) :
    Answers v ((faulty p cfg).postBatch (d.endBatch p cfg db isLast).1)
      ((KubeFdb.RecordCollector.processor q cfg).postBatch (c.endBatch q cfg db isLast).1) := by
  obtain ⟨hrel, hnd, hlt⟩ := hm.deliverLast isLast
  obtain ⟨hinner, hc⟩ := pure_endBatch_ok hok
  have hd := endBatch_ok ((hm.endBatch_result cfg isLast).trans hok)
  have hfin := (v.finish hrel hnd hlt).2 hinner
  rw [hd, hc]
  refine ⟨?_, fun db' => hfin.rel db'⟩
  show (if (d.deliverLast p isLast).firstRev = 0 then db.getLatestRev cfg
      else (d.deliverLast p isLast).firstRev)
    = if (c.deliverLast q isLast).firstRev = 0 then db.getLatestRev cfg
      else (c.deliverLast q isLast).firstRev
  rw [deliverLast_firstRev, pure_deliverLast_firstRev, hm.firstRev]

/-- 続きのある batch の後は、印も含めて対応する。 -/
theorem Matches.endBatch_agrees (cfg : Config) (hm : Matches v (fun _ => False) db d c)
    (hok : (c.endBatch q cfg db false).2.2 = .ok ()) :
    Agrees v (fun _ => False) ((faulty p cfg).postBatch (d.endBatch p cfg db false).1)
      ((KubeFdb.RecordCollector.processor q cfg).postBatch (c.endBatch q cfg db false).1) := by
  have hm' : Matches v (NoChunks db.byKeyCurrent) db d c := hm.imp fun _ hf => hf.elim
  have hans := hm'.endBatch_answers cfg hok
  have hd := endBatch_ok ((hm'.endBatch_result cfg false).trans hok)
  obtain ⟨hinner, hc⟩ := pure_endBatch_ok hok
  rw [deliverLast_false] at hd
  rw [pure_deliverLast_false] at hinner hc
  obtain ⟨hheld, hcur, hdisj⟩ := List.nodup_append'.mp hm.nodup
  have hlt : ∀ x ∈ v.base d.inner ++ v.batch d.inner, x < d.heap.size :=
    fun x hx => hm.bound x (List.mem_append_left _ hx)
  have hltc : ∀ x ∈ addr d.batchCurrentRecord, x < d.heap.size :=
    fun x hx => hm.bound x (List.mem_append_right _ hx)
  have hfin := (v.finish hm.inner hheld hlt).2 hinner
  have hkept := v.kept_endBatch d.inner d.heap db
  have hstrict : v.strict (p.postBatch (p.endBatch d.inner d.heap db).1) = v.strict d.inner := by
    rw [v.strict_postBatch, ← v.strict_startBatch, v.startBatch_endBatch, v.strict_startBatch]
  rw [hd, hc] at hans ⊢
  refine ⟨hm.maxRevision, hans.firstRev, hans.inner, ?_, ?_, fun x hx => ?_⟩
  · show Option.Rel (Carried (v.strict (p.postBatch (p.endBatch d.inner d.heap db).1)) _ _) _ _
    rw [hstrict]
    refine carried_congr hm.current fun x hx => hkept.other x (hltc x hx) fun hb => ?_
    exact hdisj (List.mem_append_right _ hb) hx
  · refine List.nodup_append'.mpr ⟨hfin.nodup, hcur, fun x hx hx' => ?_⟩
    rcases (hfin.addr x hx).2 with hold | hnew
    · exact hdisj hold hx'
    · exact absurd (hltc x hx') (not_lt.mpr hnew)
  · rcases List.mem_append.mp hx with hx | hx
    · exact (hfin.addr x hx).1
    · exact (hltc x hx).trans_le hkept.size

/-! ## processRange の一回 -/

/-- 途中の `processRange` の対応。 -/
structure CallAgrees (v : InnerView p q) (P Q : Key → Prop)
    (s : RangeCall (RecordCollector σ) IndexKey)
    (t : RangeCall (KubeFdb.RecordCollector τ) IndexKey) : Prop where
  status : s.status = t.status
  beginKey : s.beginKey = t.beginKey
  running : t.status = .running → Agrees v P s.collector t.collector ∧
    ∀ r ∈ t.collector.currentRecord, ∃ b ∈ t.beginKey, b.key = r.key ∧ Q b.key
  done : t.status = .done → Answers v s.collector t.collector

theorem CallAgrees.imp {P' : Key → Prop} {s : RangeCall (RecordCollector σ) IndexKey}
    {t : RangeCall (KubeFdb.RecordCollector τ) IndexKey} (h : CallAgrees v P Q s t)
    (hP : ∀ k, P k → P' k) : CallAgrees v P' Q s t :=
  { h with running := fun hr => ⟨(h.running hr).1.imp hP, (h.running hr).2⟩ }

/-- 失敗した回の後も、値の collector と対応する。 -/
theorem CallAgrees.failed {s : RangeCall (RecordCollector σ) IndexKey}
    {t : RangeCall (KubeFdb.RecordCollector τ) IndexKey} {range : RangeOf IndexKey IndexTuple}
    (cfg : Config) (h : CallAgrees v P Q s t) (hrun : t.status = .running) (db : Db) (f : Failure)
    (hP : ∀ e ∈ range db t.beginKey, P e.1.key) :
    CallAgrees v P Q (s.failed (faulty p cfg) range db f) t where
  status := h.status
  beginKey := h.beginKey
  done hd := absurd (hrun.symm.trans hd) (by simp)
  running _ := by
    obtain ⟨ha, hcur⟩ := h.running hrun
    refine ⟨?_, hcur⟩
    have hleaves := leaves_failed v cfg s.collector db (range db s.beginKey) f
    refine (ha.leaves hleaves).imp fun k hk => ?_
    rcases hk with hk | ⟨e, he, rfl⟩
    · exact hk
    · exact hP e (h.beginKey ▸ he)

/-- 成功した batch の後は、印も含めて対応する。 -/
theorem CallAgrees.batch {s : RangeCall (RecordCollector σ) IndexKey}
    {t : RangeCall (KubeFdb.RecordCollector τ) IndexKey} {range : RangeOf IndexKey IndexTuple}
    (cfg : Config) (n : Nat) (h : CallAgrees v P Q s t) (hrun : t.status = .running)
    (hP : ∀ k, P k → (∃ b ∈ t.beginKey, b.key = k ∧ Q b.key) →
      NoChunks db.byKeyCurrent k ∨ ∃ e ∈ (range db t.beginKey).head?, e.1.key = k)
    (hQ : ∀ e ∈ range db t.beginKey, Q e.1.key) :
    CallAgrees v (fun _ => False) Q (s.batch (faulty p cfg).toProcessor range n db).1
        (t.batch (KubeFdb.RecordCollector.processor q cfg) range n db).1 ∧
      (s.batch (faulty p cfg).toProcessor range n db).2 = db ∧
      (t.batch (KubeFdb.RecordCollector.processor q cfg) range n db).2 = db := by
  obtain ⟨ha, hb⟩ := h.running hrun
  have hm : Matches v (fun k => P k ∧ ∃ b ∈ t.beginKey, b.key = k ∧ Q b.key) db
      ((faulty p cfg).startBatch s.collector)
      ((KubeFdb.RecordCollector.processor q cfg).startBatch t.collector) := by
    refine Agrees.startBatch { ha with current := ?_ } cfg db
    exact optionRel_imp ha.current fun _ _ r hr hc => Carried.imp hc fun hp => ⟨hp, hb r hr⟩
  obtain ⟨d', c', res, hd, hc, hm₁, hmore⟩ := hm.firstLoop cfg n (fun k hk => hP k hk.1 hk.2) hQ
  have hdend : (faulty p cfg).endBatch d' db (!res.collectorNeedsMore) = _ := endBatch_eq _
  have hcend : (KubeFdb.RecordCollector.processor q cfg).endBatch c' db (!res.collectorNeedsMore)
      = _ := pure_endBatch_eq _
  rw [hm₁.endBatch_result cfg] at hdend
  rw [← h.beginKey] at hc hd
  cases hr : (c'.endBatch q cfg db (!res.collectorNeedsMore)).2.2 with
  | error e =>
    rw [hr] at hdend hcend
    rw [RangeCall.batch_error (processBatch_endBatch_error hd hdend),
      RangeCall.batch_error (processBatch_endBatch_error (h.beginKey ▸ hc) hcend)]
    exact ⟨⟨rfl, h.beginKey, fun hf => absurd hf (by simp), fun hf => absurd hf (by simp)⟩, rfl, rfl⟩
  | ok u =>
    have hans := hm₁.endBatch_answers cfg hr
    rw [hr] at hdend hcend
    rw [RangeCall.batch_ok (processBatch_ok hd hdend),
      RangeCall.batch_ok (processBatch_ok (h.beginKey ▸ hc) hcend)]
    cases hn : res.collectorNeedsMore with
    | true =>
      obtain ⟨hm₂, hbegins⟩ := hmore hn
      rw [hn, Bool.not_true] at hr
      rw [if_pos rfl, if_pos rfl, Bool.not_true]
      refine ⟨⟨rfl, rfl, fun _ => ⟨hm₂.endBatch_agrees cfg hr, ?_⟩, fun hf => by cases hf⟩, rfl, rfl⟩
      intro r hcur
      refine hbegins r ?_
      rw [(pure_endBatch_ok hr).2, pure_deliverLast_false] at hcur
      exact hcur
    | false =>
      rw [hn] at hans
      exact ⟨⟨rfl, h.beginKey, fun hf => absurd hf (by simp), fun _ => hans⟩, rfl, rfl⟩

end RecordCollector

end Shared

end KubeFdb
