import KubeFdb.Driver.Shared
import KubeFdb.Lib.Lists
import KubeFdb.Properties.Current

/-!
# 共有される record の書き換え

失敗した回が持ち越した record に残すのは、下りた印と入った値だけである。印は値を `byKeyCurrent` から
取るかどうかを決め、値は `endBatch` が入れ直す。

* `Record.Like` — 印と値のほかは同じ record
* `Kept` — 値だけを書き換えた heap
* `mergeJoin_congr` — 印が違ってよいのは、chunk のない鍵の record である
* `fetchLegacy_resolveAll` — heap の上で値を埋めた結果は、値で持つ collector の `resolveAll` と印を除いて同じである
-/

namespace KubeFdb

open Tuple

/-! ## 印と値を除いて同じ record -/

/-- 印と値を落とした record。 -/
def Record.bare (r : Record) : Record := { r with value := [], latestForKey := false }

/-- 印を落とした record。 -/
def RevRecord.unmarked (r : RevRecord) : RevRecord :=
  { r with record := { r.record with latestForKey := false } }

/-- 印と値のほかは同じ record。`strict` なら値も同じである。 -/
structure Record.Like (strict : Bool) (r r' : Record) : Prop where
  bare : r.bare = r'.bare
  value : strict = true → r.value = r'.value

namespace Record.Like

variable {strict : Bool} {r r' r'' : Record}

theorem refl (strict : Bool) (r : Record) : Like strict r r := ⟨rfl, fun _ => rfl⟩

theorem trans (h : Like strict r r') (h' : Like strict r' r'') : Like strict r r'' :=
  ⟨h.bare.trans h'.bare, fun hs => (h.value hs).trans (h'.value hs)⟩

theorem key_eq (h : Like strict r r') : r.key = r'.key :=
  show r.bare.key = r'.bare.key by rw [h.bare]

theorem isDelete_eq (h : Like strict r r') : r.isDelete = r'.isDelete :=
  show r.bare.isDelete = r'.bare.isDelete by rw [h.bare]

theorem valueSize_eq (h : Like strict r r') : r.valueSize = r'.valueSize :=
  show r.bare.valueSize = r'.bare.valueSize by rw [h.bare]

theorem mark (h : Like strict r r') (b b' : Bool) :
    Like strict { r with latestForKey := b } { r' with latestForKey := b' } :=
  ⟨h.bare, h.value⟩

/-- 同じ値を入れれば、印のほかは同じになる。 -/
theorem set_value (h : Like strict r r') (value : Bytes) :
    ({ r with value := value, latestForKey := false } : Record)
      = { r' with value := value, latestForKey := false } :=
  show ({ r.bare with value := value } : Record) = { r'.bare with value := value } by rw [h.bare]

/-- 値も同じなら、違うのは印だけである。 -/
theorem unmarked (h : Like true r r') :
    ({ r with latestForKey := false } : Record) = { r' with latestForKey := false } := by
  have heq := h.set_value r.value
  rwa [show ({ r' with value := r.value, latestForKey := false } : Record)
    = { r' with latestForKey := false } by rw [h.value rfl]] at heq

end Record.Like

open Record (Like)

/-- heap の record `ref` と、値で持つ record `r` の対応。鍵が `P` を満たせば、印は違ってもよい。 -/
structure Carried (strict : Bool) (P : Key → Prop) (h : Heap Record) (ref : RecordRef)
    (r : RevRecord) : Prop where
  rev : ref.rev = r.rev
  like : Like strict (h.cell ref.record) r.record
  mark : (h.cell ref.record).latestForKey = r.record.latestForKey ∨ P r.key

theorem Carried.congr {strict : Bool} {P : Key → Prop} {h h' : Heap Record} {ref : RecordRef}
    {r : RevRecord} (hc : Carried strict P h ref r) (heq : h'.cell ref.record = h.cell ref.record) :
    Carried strict P h' ref r := by
  refine ⟨hc.rev, ?_, ?_⟩
  · rw [heq]
    exact hc.like
  · rw [heq]
    exact hc.mark

/-! ## 値だけを書き換えた heap -/

/-- `h'` は `h` の続きで、番地 `l` の record の値のほかは変わらないこと。 -/
structure Kept (strict : Bool) (l : List Nat) (h h' : Heap Record) : Prop where
  size : h.size ≤ h'.size
  other : ∀ x < h.size, x ∉ l → h'.cell x = h.cell x
  like : ∀ x < h.size, Like strict (h'.cell x) (h.cell x)
  mark : ∀ x < h.size, (h'.cell x).latestForKey = (h.cell x).latestForKey

namespace Kept

variable {strict : Bool} {l : List Nat} {h h' h'' : Heap Record}

theorem refl (strict : Bool) (l : List Nat) (h : Heap Record) : Kept strict l h h where
  size := le_rfl
  other _ _ _ := rfl
  like _ _ := .refl ..
  mark _ _ := rfl

theorem trans (hk : Kept strict l h h') (hk' : Kept strict l h' h'') : Kept strict l h h'' where
  size := hk.size.trans hk'.size
  other x hx hl := (hk'.other x (hx.trans_le hk.size) hl).trans (hk.other x hx hl)
  like x hx := (hk'.like x (hx.trans_le hk.size)).trans (hk.like x hx)
  mark x hx := (hk'.mark x (hx.trans_le hk.size)).trans (hk.mark x hx)

/-- 前からある番地が変わらない heap。 -/
theorem of_eq (hs : h.size ≤ h'.size) (hc : ∀ x < h.size, h'.cell x = h.cell x) :
    Kept strict l h h' where
  size := hs
  other x hx _ := hc x hx
  like x hx := by rw [hc x hx]; exact .refl ..
  mark x hx := by rw [hc x hx]

theorem mono {l' : List Nat} (hk : Kept strict l h h') (hl : l ⊆ l') : Kept strict l' h h' :=
  ⟨hk.size, fun x hx hx' => hk.other x hx fun hm => hx' (hl hm), hk.like, hk.mark⟩

end Kept

namespace Shared.ListCollector

variable {h : Heap Record}

@[simp] theorem fillRecord_valueSize (buf : Bytes) (r : Record) :
    (fillRecord buf r).valueSize = r.valueSize := by
  unfold fillRecord
  split_ifs <;> rfl

theorem fillRecord_like (buf : Bytes) (r : Record) : Like false (fillRecord buf r) r := by
  refine ⟨?_, fun hs => by cases hs⟩
  unfold fillRecord
  split_ifs <;> rfl

@[simp] theorem fillRecord_latestForKey (buf : Bytes) (r : Record) :
    (fillRecord buf r).latestForKey = r.latestForKey := by
  unfold fillRecord
  split_ifs <;> rfl

/-- 一つの番地に値を入れる。 -/
theorem kept_modify (p : Nat) (buf : Bytes) : Kept false [p] h (h.modify p (fillRecord buf)) where
  size := le_rfl
  other x _ hx := Heap.cell_modify_of_ne (fun he => hx (List.mem_singleton.mpr he))
  like x _ := by
    by_cases hx : x = p
    · rw [hx, Heap.cell_modify_self]
      exact fillRecord_like ..
    · rw [Heap.cell_modify_of_ne hx]
      exact .refl ..
  mark x _ := by
    by_cases hx : x = p
    · rw [hx, Heap.cell_modify_self]
      exact fillRecord_latestForKey ..
    · rw [Heap.cell_modify_of_ne hx]

theorem kept_fill : ∀ (bufs : List (RecordRef × Bytes)) (h : Heap Record),
    Kept false (bufs.map (·.1.record)) h (fill h bufs)
  | [], h => .refl ..
  | (r, buf) :: rest, h =>
    ((kept_modify r.record buf).mono (by simp)).trans
      ((kept_fill rest _).mono (List.subset_cons_self ..))

theorem nodup_addrs_cons {r : RecordRef} {buf : Bytes} {rest : List (RecordRef × Bytes)}
    (h : (((r, buf) :: rest).map (·.1.record)).Nodup) :
    r.record ∉ rest.map (·.1.record) ∧ (rest.map (·.1.record)).Nodup :=
  List.nodup_cons.mp h

/-- どの番地にも、その番地の buffer が入る。 -/
theorem cell_fill : ∀ {bufs : List (RecordRef × Bytes)} {h : Heap Record},
    (bufs.map (·.1.record)).Nodup → (∀ x ∈ bufs, x.1.record < h.size) → ∀ x ∈ bufs,
      (fill h bufs).cell x.1.record = fillRecord x.2 (h.cell x.1.record)
  | (r, buf) :: rest, h, hnd, hlt, x, hx => by
    obtain ⟨hr, hrest⟩ := nodup_addrs_cons hnd
    have hkept := kept_fill rest (h.modify r.record (fillRecord buf))
    rw [fill]
    rcases List.mem_cons.mp hx with rfl | hx
    · rw [hkept.other _ (hlt _ List.mem_cons_self) hr, Heap.cell_modify_self]
    · have hne : x.1.record ≠ r.record := fun he => hr (List.mem_map.mpr ⟨x, hx, he⟩)
      rw [cell_fill (h := h.modify _ _) hrest (fun y hy => hlt y (List.mem_cons_of_mem _ hy)) x hx,
        Heap.cell_modify_of_ne hne]

/-! ## fetchLegacy -/

/-- `fetchLegacy` は、前からある番地を変えない。 -/
theorem fetchLegacy_cell (db : Db) : ∀ (l : List (RecordRef × Bytes)) (h : Heap Record),
    h.size ≤ (fetchLegacy db h l).2.1.size ∧
      ∀ x < h.size, (fetchLegacy db h l).2.1.cell x = h.cell x
  | [], h => ⟨le_rfl, fun _ _ => rfl⟩
  | (r, buf) :: rest, h => by
    unfold fetchLegacy
    split_ifs
    · split
      · exact ⟨le_rfl, fun _ _ => rfl⟩
      · exact ⟨le_rfl, fun _ _ => rfl⟩
      · next r' it' hget =>
        obtain ⟨hs, hc⟩ := fetchLegacy_cell db rest (h.alloc r'.record)
        refine ⟨(Nat.le_succ _).trans hs, fun x hx => ?_⟩
        exact (hc x (hx.trans (Nat.lt_succ_self _))).trans (Heap.cell_alloc_of_lt hx)
    · exact fetchLegacy_cell db rest h

/-- 差し替えた後の番地は、前の番地か、新しい番地である。 -/
theorem fetchLegacy_addrs (db : Db) : ∀ {l : List (RecordRef × Bytes)} {h : Heap Record},
    (l.map (·.1.record)).Nodup → (∀ x ∈ l, x.1.record < h.size) →
      ((fetchLegacy db h l).1.map RecordRef.record).Nodup ∧
        ∀ x ∈ (fetchLegacy db h l).1.map RecordRef.record,
          x < (fetchLegacy db h l).2.1.size ∧ (x ∈ l.map (·.1.record) ∨ h.size ≤ x)
  | [], h, _, _ => ⟨List.nodup_nil, fun _ hx => absurd hx List.not_mem_nil⟩
  | (r, buf) :: rest, h, hnd, hlt => by
    obtain ⟨hr, hrest⟩ := nodup_addrs_cons hnd
    have hrlt : r.record < h.size := hlt _ List.mem_cons_self
    have hlt' : ∀ x ∈ rest, x.1.record < h.size := fun x hx => hlt x (List.mem_cons_of_mem _ hx)
    have hsame : ((r :: rest.map Prod.fst).map RecordRef.record).Nodup ∧
        ∀ x ∈ (r :: rest.map Prod.fst).map RecordRef.record,
          x < h.size ∧ (x ∈ ((r, buf) :: rest).map (·.1.record) ∨ h.size ≤ x) := by
      have heq : (r :: rest.map Prod.fst).map RecordRef.record
          = ((r, buf) :: rest).map (·.1.record) := by simp
      rw [heq]
      refine ⟨hnd, fun x hx => ⟨?_, Or.inl hx⟩⟩
      obtain ⟨y, hy, rfl⟩ := List.mem_map.mp hx
      exact hlt y hy
    unfold fetchLegacy
    split_ifs
    · split
      · exact hsame
      · exact hsame
      · next r' it' hget =>
        obtain ⟨hnd', hmem⟩ := fetchLegacy_addrs db (h := h.alloc r'.record) hrest
          (fun x hx => (hlt' x hx).trans (Nat.lt_succ_self _))
        have hsize := (fetchLegacy_cell db rest (h.alloc r'.record)).1
        refine nodup_cons_of_fresh hnd' hmem ⟨hsize, Or.inr le_rfl⟩ (fun x hx => ?_) (fun x hx => ?_)
        · rcases hx with hold | hnew
          · obtain ⟨y, hy, rfl⟩ := List.mem_map.mp hold
            exact (hlt' y hy).ne
          · exact (Nat.lt_of_succ_le hnew).ne'
        · exact hx.imp (List.mem_cons_of_mem _) (Nat.le_succ _).trans
    · obtain ⟨hnd', hmem⟩ := fetchLegacy_addrs db hrest hlt'
      have hsize := (fetchLegacy_cell db rest h).1
      refine nodup_cons_of_fresh hnd' hmem ⟨hrlt.trans_le hsize, Or.inl List.mem_cons_self⟩
        (fun x hx => ?_) (fun x hx => hx.imp_left (List.mem_cons_of_mem _))
      rcases hx with hold | hnew
      · exact fun he => hr (he ▸ hold)
      · exact (hrlt.trans_le hnew).ne'

/-- heap の record `x` に buffer が入り、値で持つ record `y` と印と値のほかは同じであること。 -/
structure Filling (h : Heap Record) (x : RecordRef × Bytes) (y : RevRecord × Bytes) : Prop where
  rev : x.1.rev = y.1.rev
  buf : x.2 = y.2
  bound : x.1.record < h.size
  cell : ∃ r, Like false r y.1.record ∧ h.cell x.1.record = fillRecord x.2 r

theorem Filling.alloc {x : RecordRef × Bytes} {y : RevRecord × Bytes} (hf : Filling h x y)
    (r : Record) : Filling (h.alloc r) x y where
  rev := hf.rev
  buf := hf.buf
  bound := hf.bound.trans (Nat.lt_succ_self _)
  cell := by
    rw [Heap.cell_alloc_of_lt hf.bound]
    exact hf.cell

theorem Filling.isLegacy_iff {x : RecordRef × Bytes} {y : RevRecord × Bytes} (hf : Filling h x y) :
    isLegacy x.2 (h.cell x.1.record) = true ↔
      y.1.record.valueSize ≠ 0 ∧ y.2.length ≠ y.1.record.valueSize := by
  obtain ⟨r, hr, hcell⟩ := hf.cell
  rw [hcell, isLegacy, fillRecord_valueSize, hr.valueSize_eq, hf.buf]
  simp

/-- `byRevision` から読まない record は、heap の中で埋まっている。 -/
theorem Filling.resolve_of_not_legacy (db : Db) {x : RecordRef × Bytes} {y : RevRecord × Bytes}
    (hf : Filling h x y) (hl : isLegacy x.2 (h.cell x.1.record) = false) :
    ∃ out, KubeFdb.ListCollector.resolve db y.1 y.2 = .ok out ∧
      (x.1.load h).unmarked = out.unmarked := by
  obtain ⟨r, hr, hcell⟩ := hf.cell
  have hnot := mt hf.isLegacy_iff.mpr (Bool.eq_false_iff.mp hl)
  have hload : ∀ value, fillRecord x.2 r = { r with value := value } →
      (x.1.load h).unmarked
        = RevRecord.unmarked { y.1 with record := { y.1.record with value := value } } := by
    intro value hv
    rw [RevRecord.unmarked, RecordRef.load, hcell, hv, RevRecord.unmarked]
    exact RevRecord.mk.injEq .. |>.mpr ⟨hf.rev, hr.set_value value⟩
  unfold KubeFdb.ListCollector.resolve
  unfold fillRecord at hload
  rw [hr.valueSize_eq, hf.buf] at hload
  by_cases h0 : y.1.record.valueSize = 0
  · rw [if_pos h0]
    exact ⟨_, rfl, hload [] (if_pos h0)⟩
  · have hlen : y.2.length = y.1.record.valueSize := by
      by_contra hne
      exact hnot ⟨h0, hne⟩
    rw [if_neg h0, if_pos hlen]
    exact ⟨_, rfl, hload y.2 (by rw [if_neg h0, if_pos hlen])⟩

/-- `byRevision` から読む record は、そこにあれば読んだ record になる。 -/
theorem Filling.resolve_of_legacy (db : Db) {x : RecordRef × Bytes} {y : RevRecord × Bytes}
    (hf : Filling h x y) (hl : isLegacy x.2 (h.cell x.1.record) = true) :
    KubeFdb.ListCollector.resolve db y.1 y.2
      = (ByRevision.getFromIterator (ByRevision.getIterator db.byRevision x.1.rev)).bind
        (fun out => out.1.elim (.error .noRecordsInByRevIterator) .ok) := by
  obtain ⟨h0, hlen⟩ := hf.isLegacy_iff.mp hl
  simp only [KubeFdb.ListCollector.resolve, if_neg h0, if_neg hlen, hf.rev]
  cases ByRevision.getFromIterator (ByRevision.getIterator db.byRevision y.1.rev) with
  | error e => rfl
  | ok out =>
    obtain ⟨_ | r, it⟩ := out
    · rfl
    · rfl

/-- heap の上で値を埋めた結果は、`resolveAll` の結果と印を除いて同じである。 -/
theorem fetchLegacy_resolveAll (db : Db) : ∀ {l : List (RecordRef × Bytes)} {l' : List (RevRecord × Bytes)}
    {h : Heap Record}, List.Forall₂ (Filling h) l l' →
    match KubeFdb.ListCollector.resolveAll db l' with
    | .error e => (fetchLegacy db h l).2.2 = .error e
    | .ok outs => (fetchLegacy db h l).2.2 = .ok () ∧
        List.Forall₂ (fun ref out => (ref.load (fetchLegacy db h l).2.1).unmarked = out.unmarked)
          (fetchLegacy db h l).1 outs
  | [], [], h, .nil => ⟨rfl, .nil⟩
  | x :: l, y :: l', h, .cons hf hrest => by
    obtain ⟨r, buf⟩ := x
    obtain ⟨r₀, buf₀⟩ := y
    unfold fetchLegacy KubeFdb.ListCollector.resolveAll
    cases hl : isLegacy buf (h.cell r.record) with
    | true =>
      rw [show KubeFdb.ListCollector.resolve db r₀ buf₀ = _ from hf.resolve_of_legacy db hl,
        if_pos rfl]
      cases hget : ByRevision.getFromIterator (ByRevision.getIterator db.byRevision r.rev) with
      | error e => rfl
      | ok out =>
        obtain ⟨_ | r', it'⟩ := out
        · rfl
        · have ih := fetchLegacy_resolveAll db
            (hrest.imp fun _ _ hx => hx.alloc r'.record)
          have hnew := (fetchLegacy_cell db l (h.alloc r'.record)).2 h.size
            (Nat.lt_succ_self _)
          simp only [Except.bind, Option.elim_some]
          cases hall : KubeFdb.ListCollector.resolveAll db l' with
          | error e =>
            rw [hall] at ih
            exact ih
          | ok outs =>
            rw [hall] at ih
            refine ⟨ih.1, .cons ?_ ih.2⟩
            rw [RecordRef.load, hnew, Heap.cell_alloc_size]
    | false =>
      obtain ⟨out, hout, heq⟩ := hf.resolve_of_not_legacy db hl
      have ih := fetchLegacy_resolveAll db hrest
      have hcell := (fetchLegacy_cell db l h).2 r.record hf.bound
      have hres : KubeFdb.ListCollector.resolve db r₀ buf₀ = .ok out := hout
      simp only [hres, Bool.false_eq_true, if_false]
      cases hall : KubeFdb.ListCollector.resolveAll db l' with
      | error e =>
        rw [hall] at ih
        exact ih
      | ok outs =>
        rw [hall] at ih
        refine ⟨ih.1, .cons ?_ ih.2⟩
        rw [RecordRef.load, hcell]
        exact heq

end Shared.ListCollector

/-! ## merge-join と印 -/

theorem catchUp_congr {recs recs' : List RevRecord}
    (hk : recs.map RevRecord.key = recs'.map RevRecord.key) (idx : Nat) (k : Key) :
    ((recs.drop idx).takeWhile (fun r => decide (r.key < k))).length
      = ((recs'.drop idx).takeWhile (fun r => decide (r.key < k))).length := by
  have hmap : ∀ l : List RevRecord, ((l.drop idx).takeWhile (fun r => decide (r.key < k))).length
      = (((l.map RevRecord.key).drop idx).takeWhile (fun key => decide (key < k))).length := by
    intro l
    rw [← List.map_drop, List.takeWhile_map, List.length_map]
    rfl
  rw [hmap, hmap, hk]

/-- 印は、鍵が同じ chunk に出会ったときだけ見られる。 -/
theorem mergeJoin_congr {recs recs' : List RevRecord}
    (hk : recs.map RevRecord.key = recs'.map RevRecord.key) :
    ∀ (chunks : List (ChunkKey × Bytes)) (idx : Nat) (bufs : List Bytes),
    (∀ (i : Nat) (r r' : RevRecord), recs[i]? = some r → recs'[i]? = some r' →
      r.record.latestForKey = r'.record.latestForKey ∨ ∀ c ∈ chunks, c.1.key ≠ r'.key) →
    ListCollector.mergeJoin recs chunks idx bufs = ListCollector.mergeJoin recs' chunks idx bufs
  | [], _, _, _ => rfl
  | chunk :: rest, idx, bufs, hm => by
    have hrest : ∀ (i : Nat) (r r' : RevRecord), recs[i]? = some r → recs'[i]? = some r' →
        r.record.latestForKey = r'.record.latestForKey ∨ ∀ c ∈ rest, c.1.key ≠ r'.key :=
      fun i r r' hr hr' => (hm i r r' hr hr').imp_right
        fun hne c hc => hne c (List.mem_cons_of_mem _ hc)
    unfold ListCollector.mergeJoin
    rw [catchUp_congr hk idx chunk.1.key]
    generalize idx + ((recs'.drop idx).takeWhile (fun r => decide (r.key < chunk.1.key))).length
      = idx'
    have hget : (recs[idx']?).map RevRecord.key = (recs'[idx']?).map RevRecord.key := by
      rw [← List.getElem?_map, ← List.getElem?_map, hk]
    cases hr : recs[idx']? with
    | none =>
      rw [hr, Option.map_none, eq_comm, Option.map_eq_none_iff] at hget
      simp only [hr, hget]
    | some r =>
      rw [hr, Option.map_some, eq_comm, Option.map_eq_some_iff] at hget
      obtain ⟨r', hr', hkey⟩ := hget
      simp only [hr, hr']
      have hcond : (r.key = chunk.1.key ∧ r.record.latestForKey = true) ↔
          (r'.key = chunk.1.key ∧ r'.record.latestForKey = true) := by
        rw [← hkey]
        refine and_congr_right fun hc => ?_
        rcases hm idx' r r' hr hr' with hmark | hne
        · rw [hmark]
        · exact absurd hc.symm (hne chunk List.mem_cons_self)
      simp only [hcond]
      rw [mergeJoin_congr hk rest idx' _ hrest, mergeJoin_congr hk rest idx' _ hrest]

/-! ## 内側の collector の対応 -/

namespace Shared

variable {σ τ : Type}

/-- `endBatch` が済んだ後の対応。番地は、前から持っていたものか、新しいものである。 -/
structure Finished (p : InnerProcessor σ) (q : KubeFdb.InnerProcessor τ) (base : σ → List Nat)
    (Rel : Db → Heap Record → σ → τ → Prop) (h : Heap Record) (held : List Nat)
    (a : σ × Heap Record) (b : τ) : Prop where
  rel : ∀ db, Rel db a.2 (p.startBatch (p.postBatch a.1)) (q.startBatch (q.postBatch b))
  nodup : (base (p.postBatch a.1)).Nodup
  addr : ∀ x ∈ base (p.postBatch a.1), x < a.2.size ∧ (x ∈ held ∨ h.size ≤ x)

/-- 番地で持つ collector `p` と、値で持つ collector `q` の対応。`base` は前の batch までに、`batch` はこの batch で
受け取った番地である。 -/
structure InnerView (p : InnerProcessor σ) (q : KubeFdb.InnerProcessor τ) where
  /-- record の値も使うか。 -/
  strict : σ → Bool
  base : σ → List Nat
  batch : σ → List Nat
  Rel : Db → Heap Record → σ → τ → Prop
  strict_startBatch : ∀ a, strict (p.startBatch a) = strict a
  strict_postBatch : ∀ a, strict (p.postBatch a) = strict a
  base_startBatch : ∀ a, base (p.startBatch a) = base a
  batch_startBatch : ∀ a, batch (p.startBatch a) = []
  /-- batch の間に変わるものは、`startBatch` が捨てる。 -/
  startBatch_startBatch : ∀ a, p.startBatch (p.startBatch a) = p.startBatch a
  startBatch_next : ∀ a r, p.startBatch (p.next a r).1 = p.startBatch a
  startBatch_endBatch : ∀ a h db, p.startBatch (p.endBatch a h db).1 = p.startBatch a
  startBatch_endFault : ∀ a h db i, p.startBatch (p.endFault a h db i).1 = p.startBatch a
  batch_next : ∀ a r, (batch (p.next a r).1).Sublist (batch a ++ [r.record])
  kept_endBatch : ∀ a h db, Kept (strict a) (batch a) h (p.endBatch a h db).2.1
  kept_endFault : ∀ a h db i, Kept (strict a) (batch a) h (p.endFault a h db i).2
  congr : ∀ {db h h' a b}, Rel db h a b → (∀ x ∈ base a ++ batch a, h'.cell x = h.cell x) →
    Rel db h' a b
  next : ∀ {db h a b ref r}, Rel db h a b →
    Carried (strict a) (NoChunks db.byKeyCurrent) h ref r →
    Rel db h (p.next a ref).1 (q.next b r).1 ∧ (p.next a ref).2 = (q.next b r).2
  finish : ∀ {db h a b}, Rel db h a b → (base a ++ batch a).Nodup →
    (∀ x ∈ base a ++ batch a, x < h.size) →
    (p.endBatch a h db).2.2 = (q.endBatch b db).2 ∧
    ((q.endBatch b db).2 = .ok () → Finished p q base Rel h (base a ++ batch a)
      ((p.endBatch a h db).1, (p.endBatch a h db).2.1) (q.endBatch b db).1)

/-- `countCollector` は record を持たない。 -/
def countView : InnerView countProcessor KubeFdb.countProcessor where
  strict _ := false
  base _ := []
  batch _ := []
  Rel _ _ a b := a = b
  strict_startBatch _ := rfl
  strict_postBatch _ := rfl
  base_startBatch _ := rfl
  batch_startBatch _ := rfl
  startBatch_startBatch _ := rfl
  startBatch_next _ _ := rfl
  startBatch_endBatch _ _ _ := rfl
  startBatch_endFault _ _ _ _ := rfl
  batch_next _ _ := List.nil_sublist _
  kept_endBatch _ _ _ := .refl ..
  kept_endFault _ _ _ _ := .refl ..
  congr h _ := h
  next h _ := by
    subst h
    exact ⟨rfl, rfl⟩
  finish h _ _ := by
    subst h
    exact ⟨rfl, fun _ => ⟨fun _ => rfl, List.nodup_nil, fun _ hx => absurd hx List.not_mem_nil⟩⟩

/-! ## listCollector の対応 -/

namespace ListCollector

/-- `listCollector` の対応。前の batch までの record は、印を除いて同じである。 -/
structure Rel (db : Db) (h : Heap Record) (a : ListCollector) (b : KubeFdb.ListCollector) : Prop where
  limit : a.limit = b.limit
  keysOnly : a.keysOnly = b.keysOnly
  records : List.Forall₂ (fun ref r => (ref.load h).unmarked = r.unmarked) a.records b.records
  batchRecords : List.Forall₂ (Carried a.keysOnly (NoChunks db.byKeyCurrent) h)
    a.batchRecords b.batchRecords

variable {db : Db} {h : Heap Record} {a : ListCollector} {b : KubeFdb.ListCollector}

theorem forall₂_congr_heap {R : Heap Record → RecordRef → RevRecord → Prop} {h' : Heap Record}
    {l : List RecordRef} {l' : List RevRecord}
    (hR : ∀ ref r, h'.cell ref.record = h.cell ref.record → R h ref r → R h' ref r)
    (hl : List.Forall₂ (R h) l l') (heq : ∀ x ∈ l.map RecordRef.record, h'.cell x = h.cell x) :
    List.Forall₂ (R h') l l' := by
  induction hl with
  | nil => exact .nil
  | cons hr _ ih =>
    simp only [List.map_cons, List.forall_mem_cons] at heq
    exact .cons (hR _ _ heq.1 hr) (ih heq.2)

theorem Rel.congr {h' : Heap Record} (hr : Rel db h a b)
    (heq : ∀ x ∈ a.records.map RecordRef.record ++ a.batchRecords.map RecordRef.record,
      h'.cell x = h.cell x) : Rel db h' a b where
  limit := hr.limit
  keysOnly := hr.keysOnly
  records := forall₂_congr_heap (R := fun h ref r => (ref.load h).unmarked = r.unmarked)
    (fun ref r hc hu => by rw [← hu, RecordRef.load, RecordRef.load, hc]) hr.records
    fun x hx => heq x (List.mem_append_left _ hx)
  batchRecords := forall₂_congr_heap (fun ref r hc hu => hu.congr hc) hr.batchRecords
    fun x hx => heq x (List.mem_append_right _ hx)

theorem Rel.next {ref : RecordRef} {r : RevRecord} (hr : Rel db h a b)
    (hc : Carried a.keysOnly (NoChunks db.byKeyCurrent) h ref r) :
    Rel db h (a.next ref).1 (b.next r).1 ∧ (a.next ref).2 = (b.next r).2 := by
  have hlen : (a.batchRecords ++ [ref]).length + a.records.length
      = (b.batchRecords ++ [r]).length + b.records.length := by
    rw [List.length_append, List.length_append, hr.batchRecords.length_eq, hr.records.length_eq]
    rfl
  refine ⟨⟨hr.limit, hr.keysOnly, hr.records, ?_⟩, ?_⟩
  · exact List.rel_append hr.batchRecords (.cons hc .nil)
  · simp only [ListCollector.next, needMore, KubeFdb.ListCollector.next,
      KubeFdb.ListCollector.needMore, hr.limit, hlen]

/-- 鍵に chunk がなければ、範囲にもない。 -/
theorem NoChunks.rangeForKeys {m : OrdMap ChunkKey Bytes} {k : Key} (hn : NoChunks m k)
    (first last : Key) : ∀ c ∈ ByKeyCurrent.rangeForKeys m first last, c.1.key ≠ k := by
  rintro ⟨ck, chunk⟩ hc rfl
  exact hn ck.offset chunk (List.mem_of_mem_filter hc)

section

variable {strict : Bool} {batch : List RecordRef} {batch' : List RevRecord}

theorem map_key_eq_of_carried {P : Key → Prop} (hb : List.Forall₂ (Carried strict P h) batch batch') :
    (batch.map (RecordRef.load h)).map RevRecord.key = batch'.map RevRecord.key := by
  rw [List.map_map]
  exact List.forall₂_eq_eq_eq ▸ List.forall₂_map_left_iff.mpr
    (List.forall₂_map_right_iff.mpr (hb.imp fun _ _ hc => hc.like.key_eq))

/-- 印の違う record の鍵には、範囲の中に chunk がない。 -/
theorem mark_eq_or_of_carried
    (hb : List.Forall₂ (Carried strict (NoChunks db.byKeyCurrent) h) batch batch') (first last : Key)
    (i : Nat) (r r' : RevRecord) (hi : (batch.map (RecordRef.load h))[i]? = some r)
    (hi' : batch'[i]? = some r') :
    r.record.latestForKey = r'.record.latestForKey ∨
      ∀ c ∈ ByKeyCurrent.rangeForKeys db.byKeyCurrent first last, c.1.key ≠ r'.key := by
  rw [List.getElem?_map, Option.map_eq_some_iff] at hi
  obtain ⟨ref, hi, rfl⟩ := hi
  obtain ⟨hlt, rfl⟩ := List.getElem?_eq_some_iff.mp hi
  obtain ⟨hlt', rfl⟩ := List.getElem?_eq_some_iff.mp hi'
  have hc := hb.get hlt hlt'
  exact hc.mark.imp_right fun hn => NoChunks.rangeForKeys hn first last

end

/-- 二つの collector は、同じ buffer を集める。 -/
theorem Rel.joinBufs (hr : Rel db h a b) (hk : b.keysOnly = false) :
    ∃ bufs, bufs.length = b.batchRecords.length ∧ a.joinBufs h db = a.batchRecords.zip bufs ∧
      b.endBatch db =
        match KubeFdb.ListCollector.resolveAll db (b.batchRecords.zip bufs) with
        | .error e => (b, .error e)
        | .ok rs => ({ b with batchRecords := rs }, .ok ()) := by
  obtain ⟨limit, keysOnly, records, batch⟩ := a
  obtain ⟨limit', keysOnly', records', batch'⟩ := b
  obtain ⟨-, -, -, hb⟩ := hr
  simp only at hb hk
  subst hk
  have hkeys := map_key_eq_of_carried hb
  cases hb with
  | nil => exact ⟨[], rfl, rfl, rfl⟩
  | @cons ref r refs rs hc hrest =>
    obtain ⟨last, hlast⟩ : ∃ last, (r :: rs).getLast? = some last :=
      Option.isSome_iff_exists.mp (by simp)
    obtain ⟨last₀, hlast₀, hlastKey⟩ : ∃ last₀, ((ref :: refs).map (RecordRef.load h)).getLast?
        = some last₀ ∧ last₀.key = last.key := by
      have hmap : (((ref :: refs).map (RecordRef.load h)).getLast?).map RevRecord.key
          = ((r :: rs).getLast?).map RevRecord.key := by
        rw [← List.getLast?_map, ← List.getLast?_map, hkeys]
      rw [hlast] at hmap
      exact Option.map_eq_some_iff.mp hmap
    have hfirst : (ref.load h).key = r.key := hc.like.key_eq
    have hjoin : ListCollector.joinBufs ⟨limit, keysOnly, records, ref :: refs⟩ h db
        = (ref :: refs).zip (KubeFdb.ListCollector.mergeJoin ((ref :: refs).map (RecordRef.load h))
          (ByKeyCurrent.rangeForKeys db.byKeyCurrent (ref.load h).key last₀.key) 0
          (List.replicate ((ref :: refs).map (RecordRef.load h)).length [])) := by
      unfold ListCollector.joinBufs
      simp only [hlast₀]
      rfl
    refine ⟨KubeFdb.ListCollector.mergeJoin (r :: rs)
      (ByKeyCurrent.rangeForKeys db.byKeyCurrent r.key last.key) 0
      (List.replicate (r :: rs).length []), ?_, ?_, ?_⟩
    · rw [mergeJoin_length, List.length_replicate]
    · rw [hjoin, hfirst, hlastKey, mergeJoin_congr hkeys _ _ _ (mark_eq_or_of_carried (.cons hc hrest) _ _), List.length_map,
        List.length_cons, List.length_cons, hrest.length_eq]
    · simp only
      cases hall : KubeFdb.ListCollector.resolveAll db ((r :: rs).zip
          (KubeFdb.ListCollector.mergeJoin (r :: rs)
            (ByKeyCurrent.rangeForKeys db.byKeyCurrent r.key last.key) 0
            (List.replicate (r :: rs).length []))) with
      | error e =>
        simp only [KubeFdb.ListCollector.endBatch, hlast, hall, List.head?_cons,
          Bool.false_eq_true, if_false]
      | ok outs =>
        simp only [KubeFdb.ListCollector.endBatch, hlast, hall, List.head?_cons,
          Bool.false_eq_true, if_false]

theorem fst_mem_of_mem_joinBufs {x : RecordRef × Bytes} (hx : x ∈ a.joinBufs h db) :
    x.1 ∈ a.batchRecords := by
  unfold ListCollector.joinBufs at hx
  simp only at hx
  split at hx
  · exact (List.of_mem_zip hx).1
  · exact absurd hx List.not_mem_nil

/-- `endBatch` は、この batch の record の値のほかを変えない。 -/
theorem kept_fetchLegacy (hk : a.keysOnly = false) {l : List (RecordRef × Bytes)} :
    Kept a.keysOnly (a.batchRecords.map RecordRef.record) h
      (fetchLegacy db (fill h (a.joinBufs h db)) l).2.1 := by
  rw [hk]
  have hcell := fetchLegacy_cell db l (fill h (a.joinBufs h db))
  refine ((kept_fill (a.joinBufs h db) h).mono fun x hx => ?_).trans (.of_eq hcell.1 hcell.2)
  obtain ⟨y, hy, rfl⟩ := List.mem_map.mp hx
  exact List.mem_map_of_mem (fst_mem_of_mem_joinBufs hy)

theorem kept_endBatch (a : ListCollector) (h : Heap Record) (db : Db) :
    Kept a.keysOnly (a.batchRecords.map RecordRef.record) h (a.endBatch h db).2.1 := by
  unfold ListCollector.endBatch
  split
  · exact .refl ..
  · next hk => exact kept_fetchLegacy (Bool.eq_false_iff.mpr hk)

theorem kept_endFault (a : ListCollector) (h : Heap Record) (db : Db) :
    ∀ i, Kept a.keysOnly (a.batchRecords.map RecordRef.record) h (a.endFault h db i).2
  | 0 => .refl ..
  | i + 1 => by
    rw [ListCollector.endFault]
    split
    · exact .refl ..
    · next hk => exact kept_fetchLegacy (Bool.eq_false_iff.mpr hk)

theorem map_addr_zip {l : List RecordRef} {bufs : List Bytes} (hlen : bufs.length = l.length) :
    (l.zip bufs).map (·.1.record) = l.map RecordRef.record := by
  have hfst : (l.zip bufs).map Prod.fst = l := List.map_fst_zip hlen.ge
  rw [show (l.zip bufs).map (·.1.record) = ((l.zip bufs).map Prod.fst).map RecordRef.record from
    List.map_map.symm, hfst]

/-- heap に値を入れた batch の record は、値で持つ batch の record と対応する。 -/
theorem Rel.filling (hr : Rel db h a b) {bufs : List Bytes}
    (hlen : bufs.length = b.batchRecords.length)
    (hnd : (a.batchRecords.map RecordRef.record).Nodup)
    (hlt : ∀ x ∈ a.batchRecords.map RecordRef.record, x < h.size) :
    List.Forall₂ (Filling (fill h (a.batchRecords.zip bufs))) (a.batchRecords.zip bufs)
      (b.batchRecords.zip bufs) := by
  have haddr := map_addr_zip (hlen.trans hr.batchRecords.length_eq.symm)
  have hlt' : ∀ x ∈ a.batchRecords.zip bufs, x.1.record < h.size := fun x hx =>
    hlt _ (List.mem_map_of_mem (List.of_mem_zip hx).1)
  have hcell := cell_fill (h := h) (haddr ▸ hnd) hlt'
  have hall := (List.forall₂_and_left (p := (· ∈ a.batchRecords.zip bufs)) _ _).mpr
    ⟨fun _ hx => hx, forall₂_zip hr.batchRecords bufs⟩
  refine hall.imp fun x y hxy => ?_
  obtain ⟨hx, hc, hbuf⟩ := hxy
  refine ⟨hc.rev, hbuf, (hlt' x hx).trans_le (kept_fill _ h).size, h.cell x.1.record, ?_, hcell x hx⟩
  exact ⟨hc.like.bare, fun hs => by cases hs⟩

/-- 前の batch までの record と、この batch の埋まった record の番地。 -/
theorem nodup_append_fetched (db : Db) {base : List Nat} {l : List (RecordRef × Bytes)} {h₁ : Heap Record}
    (hs : h.size ≤ h₁.size) (hnd : (base ++ l.map (·.1.record)).Nodup)
    (hlt : ∀ x ∈ base ++ l.map (·.1.record), x < h.size) :
    (base ++ (fetchLegacy db h₁ l).1.map RecordRef.record).Nodup ∧
      ∀ x ∈ base ++ (fetchLegacy db h₁ l).1.map RecordRef.record,
        x < (fetchLegacy db h₁ l).2.1.size ∧ (x ∈ base ++ l.map (·.1.record) ∨ h.size ≤ x) := by
  obtain ⟨hbase, hbatch, hdisj⟩ := List.nodup_append'.mp hnd
  have hsize := hs.trans (fetchLegacy_cell db l h₁).1
  obtain ⟨hnd', hmem⟩ := fetchLegacy_addrs db (h := h₁) hbatch fun x hx =>
    (hlt _ (List.mem_append_right _ (List.mem_map_of_mem hx))).trans_le hs
  refine ⟨List.nodup_append'.mpr ⟨hbase, hnd', fun x hx hx' => ?_⟩, fun x hx => ?_⟩
  · rcases (hmem x hx').2 with hold | hnew
    · exact hdisj hx hold
    · exact absurd (hlt x (List.mem_append_left _ hx)) (not_lt.mpr (hs.trans hnew))
  · rcases List.mem_append.mp hx with hx | hx
    · exact ⟨(hlt x (List.mem_append_left _ hx)).trans_le hsize,
        Or.inl (List.mem_append_left _ hx)⟩
    · obtain ⟨hxlt, hold | hnew⟩ := hmem x hx
      · exact ⟨hxlt, Or.inl (List.mem_append_right _ hold)⟩
      · exact ⟨hxlt, Or.inr (hs.trans hnew)⟩

/-- 前の batch までの record は、この batch の終わりに変わらない。 -/
theorem Rel.records_kept {h' : Heap Record} (hr : Rel db h a b)
    (hk : Kept a.keysOnly (a.batchRecords.map RecordRef.record) h h')
    (hnd : (a.records.map RecordRef.record ++ a.batchRecords.map RecordRef.record).Nodup)
    (hlt : ∀ x ∈ a.records.map RecordRef.record ++ a.batchRecords.map RecordRef.record,
      x < h.size) :
    List.Forall₂ (fun ref r => (ref.load h').unmarked = r.unmarked) a.records b.records := by
  refine forall₂_congr_heap (R := fun h ref r => (ref.load h).unmarked = r.unmarked)
    (fun ref r hc hu => by rw [← hu, RecordRef.load, RecordRef.load, hc]) hr.records fun x hx => ?_
  exact hk.other x (hlt x (List.mem_append_left _ hx))
    fun hx' => (List.nodup_append'.mp hnd).2.2 hx hx'

theorem Rel.finish_keysOnly (hr : Rel db h a b) (hk : a.keysOnly = true)
    (hnd : (a.records.map RecordRef.record ++ a.batchRecords.map RecordRef.record).Nodup)
    (hlt : ∀ x ∈ a.records.map RecordRef.record ++ a.batchRecords.map RecordRef.record,
      x < h.size) :
    Finished listProcessor KubeFdb.listProcessor (·.records.map RecordRef.record) Rel h
      (a.records.map RecordRef.record ++ a.batchRecords.map RecordRef.record) (a, h) b := by
  have haddr : (listProcessor.postBatch a).records.map RecordRef.record
      = a.records.map RecordRef.record ++ a.batchRecords.map RecordRef.record := List.map_append
  refine ⟨fun db' => ⟨hr.limit, hr.keysOnly, ?_, .nil⟩, haddr ▸ hnd, fun x hx => ?_⟩
  · -- 値は空のままで、違い得るのは印だけである
    refine List.rel_append hr.records (hr.batchRecords.imp fun ref r hc => ?_)
    have hlike := hc.like
    rw [hk] at hlike
    exact RevRecord.mk.injEq .. |>.mpr ⟨hc.rev, hlike.unmarked⟩
  · rw [haddr] at hx
    exact ⟨hlt x hx, Or.inl hx⟩

theorem Rel.finish_values (hr : Rel db h a b) (hk : a.keysOnly = false)
    (hnd : (a.records.map RecordRef.record ++ a.batchRecords.map RecordRef.record).Nodup)
    (hlt : ∀ x ∈ a.records.map RecordRef.record ++ a.batchRecords.map RecordRef.record,
      x < h.size) :
    (a.endBatch h db).2.2 = (b.endBatch db).2 ∧
    ((b.endBatch db).2 = .ok () →
      Finished listProcessor KubeFdb.listProcessor (·.records.map RecordRef.record) Rel h
        (a.records.map RecordRef.record ++ a.batchRecords.map RecordRef.record)
        ((a.endBatch h db).1, (a.endBatch h db).2.1) (b.endBatch db).1) := by
  have hkept := hr.records_kept (kept_endBatch a h db) hnd hlt
  obtain ⟨bufs, hlen, hjoin, hend'⟩ := hr.joinBufs (hr.keysOnly ▸ hk)
  have hend : a.endBatch h db = ({ a with batchRecords := (fetchLegacy db
      (fill h (a.joinBufs h db)) (a.joinBufs h db)).1 }, (fetchLegacy db
      (fill h (a.joinBufs h db)) (a.joinBufs h db)).2) := if_neg (by rw [hk]; simp)
  have haddr := map_addr_zip (hlen.trans hr.batchRecords.length_eq.symm)
  have hfill := fetchLegacy_resolveAll db (hr.filling hlen (List.nodup_append'.mp hnd).2.1
    fun x hx => hlt x (List.mem_append_right _ hx))
  rw [hjoin] at hend
  rw [hend] at hkept
  rw [hend, hend']
  rw [← haddr] at hnd hlt ⊢
  split at hfill
  · exact ⟨hfill, fun hok => by cases hok⟩
  · obtain ⟨hres, hall⟩ := hfill
    have haddrs := nodup_append_fetched db (kept_fill (a.batchRecords.zip bufs) h).size hnd hlt
    rw [← List.map_append] at haddrs
    exact ⟨hres, fun _ => ⟨fun db' => ⟨hr.limit, hr.keysOnly, List.rel_append hkept hall, .nil⟩,
      haddrs.1, haddrs.2⟩⟩

end ListCollector

/-- `listCollector` の対応。 -/
def listView : InnerView listProcessor KubeFdb.listProcessor where
  strict a := a.keysOnly
  base a := a.records.map RecordRef.record
  batch a := a.batchRecords.map RecordRef.record
  Rel := ListCollector.Rel
  strict_startBatch _ := rfl
  strict_postBatch _ := rfl
  base_startBatch _ := rfl
  batch_startBatch _ := rfl
  startBatch_startBatch _ := rfl
  startBatch_next _ _ := rfl
  startBatch_endBatch a h db := by
    show { (a.endBatch h db).1 with batchRecords := [] } = _
    unfold ListCollector.endBatch
    split <;> rfl
  startBatch_endFault a h db i := by
    show { (a.endFault h db i).1 with batchRecords := [] } = _
    unfold ListCollector.endFault
    split
    · rfl
    · split <;> rfl
  batch_next a r := by
    show ((a.batchRecords ++ [r]).map RecordRef.record).Sublist _
    rw [List.map_append]
    exact .refl _
  kept_endBatch := ListCollector.kept_endBatch
  kept_endFault := ListCollector.kept_endFault
  congr h heq := h.congr heq
  next h hc := h.next hc
  finish {db h a b} hr hnd hlt := by
    cases hk : a.keysOnly with
    | true =>
      have hend : listProcessor.endBatch a h db = (a, h, .ok ()) := if_pos hk
      have hend' : KubeFdb.listProcessor.endBatch b db = (b, .ok ()) := if_pos (hr.keysOnly ▸ hk)
      rw [hend, hend']
      exact ⟨rfl, fun _ => hr.finish_keysOnly hk hnd hlt⟩
    | false => exact hr.finish_values hk hnd hlt

end Shared

end KubeFdb
