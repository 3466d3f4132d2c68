import KubeFdb.Properties.Scan

/-!
# 内側の collector の仕様

`listCollector` と `countCollector` が `InnerSpec` を満たすことを示す。

`listCollector` の batch の終わりは `endBatch_resolve` にまとめる。`keysOnly` でなければ、
受け取った record の値を一つずつ `resolve` で埋める。
-/

namespace KubeFdb

open Tuple

variable {cfg : Config} {db : Db}

/-! ## resolveAll -/

theorem resolveAll_ok : ∀ {l : List (RevRecord × Bytes)} {outs : List RevRecord},
    ListCollector.resolveAll db l = .ok outs →
    List.Forall₂ (fun x out => ListCollector.resolve db x.1 x.2 = .ok out) l outs
  | [], outs, h => by
    cases h
    exact .nil
  | (r, buf) :: l, outs, h => by
    unfold ListCollector.resolveAll at h
    split at h
    · cases h
    · next r' hr =>
      split at h
      · cases h
      · next rs hrs =>
        cases h
        exact .cons hr (resolveAll_ok hrs)

theorem resolveAll_error : ∀ {l : List (RevRecord × Bytes)} {e : Err},
    ListCollector.resolveAll db l = .error e →
    ∃ x ∈ l, ListCollector.resolve db x.1 x.2 = .error e
  | [], e, h => by cases h
  | (r, buf) :: l, e, h => by
    unfold ListCollector.resolveAll at h
    split at h
    · next e' hr =>
      cases h
      exact ⟨(r, buf), List.mem_cons_self, hr⟩
    · split at h
      · next e' hrs =>
        cases h
        obtain ⟨x, hx, hxe⟩ := resolveAll_error hrs
        exact ⟨x, List.mem_cons_of_mem _ hx, hxe⟩
      · cases h

/-! ## endBatch -/

/-- 渡された record は鍵の昇順である。 -/
abbrev PicksSorted (now : Picks) : Prop := SortedBy (fun c : RevRecord × Bool => c.1.key) now

theorem rangeForKeys_ordered (m : OrdMap ChunkKey Bytes) (first last : Key) :
    (ByKeyCurrent.rangeForKeys m first last).Pairwise (fun a b => a.1.key ≤ b.1.key) := by
  refine List.Pairwise.imp ?_ (m.sorted.filter _)
  intro a b hab
  rcases Prod.Lex.lt_iff.mp hab with hlt | ⟨he, -⟩
  · exact hlt.le
  · exact he.le

/-- `keysOnly` でない batch の終わりは、record ごとの `resolve` に帰着する。 -/
theorem endBatch_resolve (db : Db) {c : ListCollector} {now : Picks} (hk : c.keysOnly = false)
    (hb : c.batchRecords = now.map mark) (hs : PicksSorted now) :
    ∃ buf : RevRecord × Bool → Bytes,
      (∀ x ∈ now, ∃ first last, first ≤ x.1.key ∧ x.1.key ≤ last ∧
        buf x = joined (ByKeyCurrent.rangeForKeys db.byKeyCurrent first last) (mark x)) ∧
      c.endBatch db = (match ListCollector.resolveAll db (now.map (fun x => (mark x, buf x))) with
        | .error e => (c, .error e)
        | .ok rs => ({ c with batchRecords := rs }, .ok ())) := by
  cases now with
  | nil =>
    refine ⟨fun _ => [], fun x hx => absurd hx List.not_mem_nil, ?_⟩
    unfold ListCollector.endBatch
    rw [if_neg (by simp [hk]), hb]
    simp only [List.map_nil, List.head?_nil, ListCollector.resolveAll]
    rw [← show c.batchRecords = [] from hb]
  | cons x rest =>
    obtain ⟨y, hy⟩ : ∃ y, (x :: rest).getLast? = some y :=
      Option.isSome_iff_exists.mp (by simp)
    have hlast : ∀ z ∈ x :: rest, z.1.key ≤ y.1.key :=
      (hs.getLast?_eq_some_iff.mp hy).2
    have hfirst : ∀ z ∈ x :: rest, x.1.key ≤ z.1.key := by
      intro z hz
      rcases List.mem_cons.mp hz with rfl | hz
      · exact le_rfl
      · exact (hs.lt_of_mem hz).le
    refine ⟨fun z => joined (ByKeyCurrent.rangeForKeys db.byKeyCurrent x.1.key y.1.key) (mark z),
      fun z hz => ⟨x.1.key, y.1.key, hfirst z hz, hlast z hz, rfl⟩, ?_⟩
    have hsorted : SortedBy RevRecord.key ((x :: rest).map mark) := SortedBy.map_iff.mpr hs
    have hzip := zip_mergeJoin hsorted
      (rangeForKeys_ordered db.byKeyCurrent (mark x).key (mark y).key)
    unfold ListCollector.endBatch
    rw [if_neg (by simp [hk]), hb]
    simp only [List.head?_map, List.getLast?_map, hy, List.head?_cons, Option.map_some]
    rw [hzip, List.map_map]
    rfl

/-- 値を埋められないのは、record が log から消えているときだけである。 -/
theorem resolve_error {recs : List RevRecord} (h : db.Holds recs) {r : RevRecord} {buf : Bytes}
    {e : Err} (he : ListCollector.resolve db r buf = .error e) :
    e = .noRecordsInByRevIterator ∧ ∀ r' ∈ recs, r'.rev ≠ r.rev := by
  unfold ListCollector.resolve at he
  split at he
  · cases he
  · split at he
    · cases he
    · by_cases hex : ∃ r' ∈ recs, r'.rev = r.rev
      · obtain ⟨r', hr', hrev⟩ := hex
        have hget := ByRevision.get_of_mem h.sorted h.log hr' (h.wf r' hr').size
        rw [hrev] at hget
        rw [hget] at he
        cases he
      · have hne : ∀ r' ∈ recs, r'.rev ≠ r.rev := fun r' hr' hc => hex ⟨r', hr', hc⟩
        rw [ByRevision.get_of_not_mem h.log hne] at he
        cases he
        exact ⟨rfl, hne⟩

section ListEnd

variable {recs hist : List RevRecord} {keysOnly : Bool} {s s' : ListCollector} {now : Picks}

/-- `keysOnly` でない batch の終わりが成功すれば、埋められる record の値が埋まる。 -/
theorem list_endBatch_filled (cfg : Config) (ht : db.Tracks recs hist) (hk : s.keysOnly = false)
    (hb : s.batchRecords = now.map mark) (hs : PicksSorted now)
    (hend : s.endBatch db = (s', .ok ())) :
    s'.limit = s.limit ∧ s'.keysOnly = false ∧ s'.records = s.records ∧
      List.Forall₂ (fun c out => Fillable recs hist c → Filled cfg c.1 out) now s'.batchRecords := by
  obtain ⟨buf, hbuf, heq⟩ := endBatch_resolve db hk hb hs
  rw [heq] at hend
  split at hend
  · cases hend
  · next outs houts =>
    cases hend
    refine ⟨rfl, hk, rfl, ?_⟩
    have hall := List.forall₂_map_left_iff.mp (resolveAll_ok houts)
    refine ((List.forall₂_and_left _ _).mpr ⟨fun x hx => hx, hall⟩).imp ?_
    rintro x out ⟨hx, hout⟩ hf
    obtain ⟨first, last, h1, h2, hbx⟩ := hbuf x hx
    rcases resolve_spec cfg ht hf h1 h2 with ⟨out', ho, hfilled⟩ | ⟨-, ho⟩
    · rw [hbx, ho] at hout
      cases hout
      exact hfilled
    · rw [hbx, ho] at hout
      cases hout

/-- 成功した batch の終わりは、埋められる record の値を埋める。 -/
theorem list_endBatch_ok (cfg : Config) (ht : db.Tracks recs hist) (hk : s.keysOnly = keysOnly)
    (hb : s.batchRecords = now.map mark) (hs : PicksSorted now)
    (hend : s.endBatch db = (s', .ok ())) :
    s'.limit = s.limit ∧ s'.keysOnly = keysOnly ∧ s'.records = s.records ∧
      List.Forall₂ (fun c out => Fillable recs hist c →
        kvOf cfg out = kvOf cfg (c.1.listed keysOnly)) now s'.batchRecords := by
  cases keysOnly with
  | true =>
    unfold ListCollector.endBatch at hend
    rw [if_pos hk] at hend
    cases hend
    refine ⟨rfl, hk, rfl, ?_⟩
    rw [hb, List.forall₂_map_right_iff]
    exact List.forall₂_same.mpr (fun c _ _ => rfl)
  | false =>
    obtain ⟨hl, hk', hr, hall⟩ := list_endBatch_filled cfg ht hk hb hs hend
    exact ⟨hl, hk', hr, hall.imp fun c out h hf => (h hf).kv⟩

/-- 失敗した batch の終わりでは、渡された record のどれかが log から消えている。 -/
theorem list_endBatch_error (h : db.Holds recs) (hb : s.batchRecords = now.map mark)
    (hs : PicksSorted now) {e : Err} (hend : s.endBatch db = (s', .error e)) :
    e = .noRecordsInByRevIterator ∧ ∃ x ∈ now, x.1 ∉ recs := by
  cases hk : s.keysOnly with
  | true =>
    unfold ListCollector.endBatch at hend
    rw [if_pos hk] at hend
    cases hend
  | false =>
    obtain ⟨buf, -, heq⟩ := endBatch_resolve db hk hb hs
    rw [heq] at hend
    split at hend
    · next e' he =>
      cases hend
      obtain ⟨y, hy, hye⟩ := resolveAll_error he
      obtain ⟨x, hx, rfl⟩ := List.mem_map.mp hy
      obtain ⟨hno, hne⟩ := resolve_error h hye
      exact ⟨hno, x, hx, fun hc => hne x.1 hc rfl⟩
    · cases hend

end ListEnd

/-! ## listCollector -/

/-- `k` 個受け取った後、`limit` までに入る要素。0 は上限なしである。 -/
def within {α : Type} (limit : Int) (k : Nat) (l : List α) : List α :=
  if limit = 0 then l else l.take (limit.toNat - k)

theorem within_append {α : Type} (limit : Int) (l l' : List α) :
    within limit 0 (l ++ l') = within limit 0 l ++ within limit l.length l' := by
  unfold within
  split
  · rfl
  · rw [Nat.sub_zero, List.take_append]

theorem within_map {α β : Type} (limit : Int) (k : Nat) (f : α → β) (l : List α) :
    within limit k (l.map f) = (within limit k l).map f := by
  unfold within
  split
  · rfl
  · rw [List.map_take]

theorem within_forall₂ {α β : Type} {R : α → β → Prop} (limit : Int) (k : Nat) {l : List α}
    {l' : List β} (h : List.Forall₂ R l l') :
    List.Forall₂ R (within limit k l) (within limit k l') := by
  unfold within
  split
  · exact h
  · exact List.forall₂_take _ h

/-- `limit` を超えて受け取った要素は数えない。 -/
theorem within_append_of_le {α : Type} {limit : Int} {k : Nat} {l : List α} (l' : List α)
    (h0 : limit ≠ 0) (h : limit ≤ (k + l.length : Nat)) :
    within limit k (l ++ l') = within limit k l := by
  unfold within
  rw [if_neg h0, if_neg h0, List.take_append_of_le_length (by omega)]

/-- `listCollector`。`limit` を超えて受け取った record は仕上がっていないことがある。 -/
def listSpec (cfg : Config) (keysOnly : Bool) (limit : Int) : InnerSpec listProcessor where
  wants k := decide (limit = 0) || decide ((k : Int) < limit)
  Received s done := s.limit = limit ∧ s.keysOnly = keysOnly ∧ s.records.length = done.length ∧
    within limit 0 (s.records.map (kvOf cfg))
      = within limit 0 (done.map (fun c => kvOf cfg (c.1.listed keysOnly)))
  InBatch s done now := (s.limit = limit ∧ s.keysOnly = keysOnly ∧ s.records.length = done.length ∧
    within limit 0 (s.records.map (kvOf cfg))
      = within limit 0 (done.map (fun c => kvOf cfg (c.1.listed keysOnly)))) ∧
    s.batchRecords = now.map mark
  Ready db done now := ∃ recs hist, db.Tracks recs hist ∧ PicksSorted now ∧
    ∀ c ∈ within limit done.length now, Fillable recs hist c
  start h := ⟨h, rfl⟩
  next c h := by
    obtain ⟨⟨hl, hk, hlen, hr⟩, hb⟩ := h
    refine ⟨⟨⟨hl, hk, hlen, hr⟩, ?_⟩, ?_⟩
    · simp [listProcessor, ListCollector.next, hb]
    · simp only [listProcessor, ListCollector.next, ListCollector.needMore, hl, hb, hlen,
        List.length_append, List.length_map, List.length_singleton]
      rw [Nat.add_comm]
  finish := by
    rintro s s' done now db ⟨⟨hl, hk, hlen, hr⟩, hb⟩ ⟨recs, hist, ht, hs, hf⟩ hend
    obtain ⟨hl', hk', hr', hall⟩ := list_endBatch_ok cfg ht hk hb hs hend
    refine ⟨hl'.trans hl, hk', ?_, ?_⟩
    · show (s'.records ++ s'.batchRecords).length = _
      rw [List.length_append, List.length_append, hr', hlen, hall.length_eq]
    · show within limit 0 ((s'.records ++ s'.batchRecords).map (kvOf cfg)) = _
      have hnow : within limit done.length (s'.batchRecords.map (kvOf cfg))
          = within limit done.length (now.map (fun c => kvOf cfg (c.1.listed keysOnly))) := by
        rw [within_map, within_map]
        refine (List.forall₂_eq_eq_eq ▸ List.forall₂_map_right_iff.mpr
          (List.forall₂_map_left_iff.mpr ?_) : _ = _).symm
        refine ((List.forall₂_and_left _ _).mpr
          ⟨fun x hx => hx, within_forall₂ limit done.length hall⟩).imp ?_
        rintro x out ⟨hx, hout⟩
        exact (hout (hf x hx)).symm
      rw [List.map_append, List.map_append, within_append, within_append, hr', hr,
        List.length_map, List.length_map, hlen, hnow]

/-- `keysOnly` の `listCollector`。受け取った record を、`limit` を超えたものも含めて、そのまま持つ。 -/
def keysSpec (limit : Int) : InnerSpec listProcessor where
  wants k := decide (limit = 0) || decide ((k : Int) < limit)
  Received s done := s.limit = limit ∧ s.keysOnly = true ∧ s.records = done.map mark
  InBatch s done now := (s.limit = limit ∧ s.keysOnly = true ∧ s.records = done.map mark) ∧
    s.batchRecords = now.map mark
  Ready _ _ _ := True
  start h := ⟨h, rfl⟩
  next c h := by
    obtain ⟨⟨hl, hk, hr⟩, hb⟩ := h
    refine ⟨⟨⟨hl, hk, hr⟩, ?_⟩, ?_⟩
    · simp [listProcessor, ListCollector.next, hb]
    · simp only [listProcessor, ListCollector.next, ListCollector.needMore, hl, hr, hb,
        List.length_append, List.length_map, List.length_singleton]
      rw [Nat.add_comm]
  finish := by
    rintro s s' done now db ⟨⟨hl, hk, hr⟩, hb⟩ - hend
    have hsame : s' = s := by
      simp only [listProcessor, ListCollector.endBatch, hk, if_true] at hend
      exact (Prod.mk.inj hend).1.symm
    subst hsame
    refine ⟨hl, hk, ?_⟩
    show s'.records ++ s'.batchRecords = _
    rw [hr, hb, List.map_append]

/-- 上限がなく `keysOnly` でない `listCollector`。受け取った record を、revision と値を変えずに持つ。 -/
def valueSpec (cfg : Config) : InnerSpec listProcessor where
  wants _ := true
  Received s done := s.limit = 0 ∧ s.keysOnly = false ∧
    List.Forall₂ (fun (c : RevRecord × Bool) out => Filled cfg c.1 out) done s.records
  InBatch s done now := (s.limit = 0 ∧ s.keysOnly = false ∧
    List.Forall₂ (fun (c : RevRecord × Bool) out => Filled cfg c.1 out) done s.records) ∧ s.batchRecords = now.map mark
  Ready db _ now := ∃ recs hist, db.Tracks recs hist ∧ PicksSorted now ∧
    ∀ c ∈ now, Fillable recs hist c
  start h := ⟨h, rfl⟩
  next c h := by
    obtain ⟨⟨hl, hk, hr⟩, hb⟩ := h
    refine ⟨⟨⟨hl, hk, hr⟩, ?_⟩, ?_⟩
    · simp [listProcessor, ListCollector.next, hb]
    · simp [listProcessor, ListCollector.next, ListCollector.needMore, hl]
  finish := by
    rintro s s' done now db ⟨⟨hl, hk, hr⟩, hb⟩ ⟨recs, hist, ht, hs, hf⟩ hend
    obtain ⟨hl', hk', hr', hall⟩ := list_endBatch_filled cfg ht hk hb hs hend
    refine ⟨hl'.trans hl, hk', ?_⟩
    show List.Forall₂ _ (done ++ now) (s'.records ++ s'.batchRecords)
    rw [hr']
    refine List.rel_append hr (((List.forall₂_and_left _ _).mpr ⟨fun c hc => hc, hall⟩).imp ?_)
    rintro c out ⟨hc, hout⟩
    exact hout (hf c hc)

/-! ## countCollector -/

def countSpec : InnerSpec countProcessor where
  wants _ := true
  Received s done := s.totalCount = done.length
  InBatch s done now := s.totalCount = done.length ∧ s.batchCount = now.length
  Ready _ _ _ := True
  start h := ⟨h, rfl⟩
  next c h := by
    refine ⟨⟨h.1, ?_⟩, rfl⟩
    simp [countProcessor, h.2]
  finish := by
    rintro s s' done now db ⟨ht, hb⟩ - hend
    cases hend
    simp [countProcessor, ht, hb]

end KubeFdb
