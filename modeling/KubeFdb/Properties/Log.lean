import KubeFdb.Driver.Subspace

/-!
# log の並びと読み書き

`byRevision` の entry の列と record の列の対応。record の列を revision の昇順に並べ、
一つずつ header と chunk に展開したもの（`logEntries`）が entry の列になる。

* `write_entries` — 最大の revision の `Write` は展開した列の末尾に足す
* `delete_entries` — `Delete` は record を一つ抜く
* `getFromIterator_logEntries` — 展開した列の先頭から record を一つ読み戻す
-/

namespace KubeFdb

open Tuple

/-! ## chunk -/

theorem flatten_chunks (value : Bytes) (c : Nat) : ∀ n : Nat,
    ((List.range n).map (fun i => (value.drop (i * c)).take c)).flatten = value.take (n * c)
  | 0 => by simp
  | n + 1 => by
    rw [List.range_succ, List.map_append, List.flatten_append, flatten_chunks value c n]
    simp only [List.map_cons, List.map_nil, List.flatten_cons, List.flatten_nil, List.append_nil]
    rw [Nat.succ_mul, List.take_add]

theorem length_le_numChunks (size : Nat) : size ≤ numChunks size * chunkSize := by
  unfold numChunks chunkSize
  omega

/-- chunk を並べると元の値になる。 -/
theorem chunksOf_flatten (value : Bytes) : ((chunksOf value).map Prod.snd).flatten = value := by
  unfold chunksOf
  rw [List.map_map]
  show ((List.range (numChunks value.length)).map
    (fun i => (value.drop (i * chunkSize)).take chunkSize)).flatten = value
  rw [flatten_chunks, List.take_of_length_le (length_le_numChunks _)]

theorem mem_chunksOf {value : Bytes} {c : Nat × Bytes} (h : c ∈ chunksOf value) :
    ∃ i < numChunks value.length,
      c = (i * chunkSize, (value.drop (i * chunkSize)).take chunkSize) := by
  obtain ⟨i, hi, rfl⟩ := List.mem_map.mp h
  exact ⟨i, List.mem_range.mp hi, rfl⟩

theorem offset_lt_of_lt_numChunks {size i : Nat} (h : i < numChunks size) :
    i * chunkSize < size := by
  unfold numChunks chunkSize at *
  omega

/-- offset は値の長さより小さい。 -/
theorem offset_lt {value : Bytes} {c : Nat × Bytes} (h : c ∈ chunksOf value) :
    c.1 < value.length := by
  obtain ⟨i, hi, rfl⟩ := mem_chunksOf h
  exact offset_lt_of_lt_numChunks hi

theorem chunk_ne_nil {value : Bytes} {c : Nat × Bytes} (h : c ∈ chunksOf value) : c.2 ≠ [] := by
  obtain ⟨i, hi, rfl⟩ := mem_chunksOf h
  have hlt := offset_lt_of_lt_numChunks hi
  intro hc
  have hlen := congrArg List.length hc
  simp only [List.length_take, List.length_drop, List.length_nil, chunkSize] at hlen hlt
  omega

theorem chunksOf_sorted (value : Bytes) : SortedBy Prod.fst (chunksOf value) := by
  unfold chunksOf
  rw [SortedBy.map_iff]
  refine List.Pairwise.imp ?_ List.pairwise_lt_range
  intro a b hab
  exact Nat.mul_lt_mul_of_pos_right hab (by decide)

/-! ## 鍵 -/

theorem revKey_lt_of_rev_lt {a b : RevKey} (h : a.rev < b.rev) : a < b :=
  Prod.Lex.lt_iff.mpr (Or.inl h)

theorem headerKey_lt_chunkKey (rev : Versionstamp) (o : Nat) : headerKey rev < chunkKey rev o :=
  Prod.Lex.lt_iff.mpr (Or.inr ⟨rfl, WithBot.bot_lt_coe o⟩)

theorem chunkKey_lt_chunkKey {rev : Versionstamp} {o o' : Nat} (h : o < o') :
    chunkKey rev o < chunkKey rev o' :=
  Prod.Lex.lt_iff.mpr (Or.inr ⟨rfl, WithBot.coe_lt_coe.mpr h⟩)

/-! ## record の展開 -/

/-- record が占める `byRevision` の entry。 -/
def logEntries (r : RevRecord) : List (RevKey × RevValue) :=
  (headerKey r.rev, .header (ByRevision.recordToTuple r.record)) ::
    (chunksOf r.record.value).map (fun c => (chunkKey r.rev c.1, .chunk c.2))

theorem logEntries_rev {r : RevRecord} {e : RevKey × RevValue} (h : e ∈ logEntries r) :
    e.1.rev = r.rev := by
  rcases List.mem_cons.mp h with rfl | h
  · rfl
  · obtain ⟨c, -, rfl⟩ := List.mem_map.mp h
    rfl

theorem logEntries_sorted (r : RevRecord) : SortedBy Prod.fst (logEntries r) := by
  refine List.Pairwise.cons ?_ ?_
  · intro e he
    obtain ⟨c, -, rfl⟩ := List.mem_map.mp he
    exact headerKey_lt_chunkKey _ _
  · refine List.pairwise_map.mpr ((chunksOf_sorted r.record.value).imp ?_)
    intro a b hab
    exact chunkKey_lt_chunkKey hab

/-- revision の昇順の record を展開した列は鍵の昇順である。 -/
theorem flatMap_logEntries_sorted : ∀ {recs : List RevRecord}, SortedBy RevRecord.rev recs →
    SortedBy Prod.fst (recs.flatMap logEntries)
  | [], _ => SortedBy.nil
  | r :: rest, h => by
    rw [List.flatMap_cons]
    refine SortedBy.append_iff.mpr
      ⟨logEntries_sorted r, flatMap_logEntries_sorted h.tail, ?_⟩
    intro a ha b hb
    obtain ⟨r', hr', hb'⟩ := List.mem_flatMap.mp hb
    refine revKey_lt_of_rev_lt ?_
    rw [logEntries_rev ha, logEntries_rev hb']
    exact h.lt_of_mem hr'

/-- revision だけを見る条件で entry を選ぶことは、record を選ぶことと同じである。 -/
theorem filter_flatMap_logEntries (recs : List RevRecord) (p : Versionstamp → Bool) :
    (recs.flatMap logEntries).filter (fun e => p e.1.rev)
      = (recs.filter (fun r => p r.rev)).flatMap logEntries := by
  induction recs with
  | nil => rfl
  | cons r rest ih =>
    rw [List.flatMap_cons, List.filter_append, ih]
    cases hp : p r.rev with
    | true =>
      rw [List.filter_cons_of_pos (by simpa using hp), List.flatMap_cons,
        List.filter_eq_self.mpr (fun e he => by rw [logEntries_rev he]; exact hp)]
    | false =>
      rw [List.filter_cons_of_neg (by simp [hp]),
        List.filter_eq_nil_iff.mpr (fun e he => by rw [logEntries_rev he]; simp [hp]),
        List.nil_append]

/-! ## Write と Delete -/

theorem ByRevision.mem_write {m : OrdMap RevKey RevValue} {rev : Versionstamp} {record : Record}
    {e : RevKey × RevValue} (hnew : ∀ e ∈ m.entries, e.1.rev ≠ rev) :
    e ∈ (ByRevision.write m rev record).entries ↔
      e ∈ logEntries ⟨rev, record⟩ ∨ e ∈ m.entries := by
  have hs : SortedBy (fun c : Nat × Bytes => chunkKey rev c.1) (chunksOf record.value) :=
    (chunksOf_sorted record.value).imp (fun hab => chunkKey_lt_chunkKey hab)
  unfold ByRevision.write ByRevision.writeBlob
  rw [OrdMap.mem_set, OrdMap.mem_foldl_set (fun c => RevValue.chunk c.2) hs]
  unfold logEntries
  rw [List.mem_cons, List.mem_map]
  constructor
  · rintro (rfl | ⟨⟨c, hc, rfl⟩ | ⟨he, -⟩, -⟩)
    · exact Or.inl (Or.inl rfl)
    · exact Or.inl (Or.inr ⟨c, hc, rfl⟩)
    · exact Or.inr he
  · rintro ((rfl | ⟨c, hc, rfl⟩) | he)
    · exact Or.inl rfl
    · exact Or.inr ⟨Or.inl ⟨c, hc, rfl⟩, (headerKey_lt_chunkKey rev c.1).ne'⟩
    · refine Or.inr ⟨Or.inr ⟨he, fun c _ hc => hnew e he ?_⟩, fun hc => hnew e he ?_⟩
      · rw [hc]; rfl
      · rw [hc]; rfl

variable {m : OrdMap RevKey RevValue} {recs : List RevRecord}

/-- 最大の revision の `Write` は、展開した列の末尾に足す。 -/
theorem ByRevision.write_entries (hs : SortedBy RevRecord.rev recs)
    (hm : m.entries = recs.flatMap logEntries) {r : RevRecord}
    (hnew : ∀ r' ∈ recs, r'.rev < r.rev) :
    (ByRevision.write m r.rev r.record).entries = (recs ++ [r]).flatMap logEntries := by
  have hne : ∀ e ∈ m.entries, e.1.rev ≠ r.rev := by
    intro e he
    rw [hm] at he
    obtain ⟨r', hr', he'⟩ := List.mem_flatMap.mp he
    rw [logEntries_rev he']
    exact (hnew r' hr').ne
  refine SortedBy.eq_of_mem_iff (OrdMap.sorted _) (flatMap_logEntries_sorted (hs.concat hnew)) ?_
  intro e
  rw [ByRevision.mem_write hne, List.flatMap_append, List.mem_append, hm, or_comm]
  simp

theorem ByRevision.delete_entries (hm : m.entries = recs.flatMap logEntries)
    (rev : Versionstamp) :
    (ByRevision.delete m rev).entries
      = (recs.filter (fun r => decide (r.rev ≠ rev))).flatMap logEntries := by
  show m.entries.filter (fun e => decide (e.1.rev ≠ rev)) = _
  rw [hm, filter_flatMap_logEntries recs (fun v => decide (v ≠ rev))]

/-! ## 読み戻し -/

/-- `byRevision` から読んだ record。`WriteUUID` は索引にしかない。 -/
def RevRecord.stored (r : RevRecord) : RevRecord :=
  { r with record := { r.record with writeUUID := 0, latestForKey := false } }

theorem copyAt_zeros (pre b : Bytes) (n : Nat) :
    ByRevision.copyAt (pre ++ List.replicate (b.length + n) 0) pre.length b
      = (pre ++ b) ++ List.replicate n 0 := by
  unfold ByRevision.copyAt
  rw [List.take_left]
  have h1 : b.take ((pre ++ List.replicate (b.length + n) (0 : Byte)).length - pre.length) = b := by
    refine List.take_of_length_le ?_
    simp only [List.length_append, List.length_replicate]
    omega
  have h2 : (pre ++ List.replicate (b.length + n) (0 : Byte)).drop (pre.length + b.length)
      = List.replicate n 0 := by
    rw [← List.drop_drop, List.drop_left, List.drop_replicate]
    congr 1
    omega
  rw [h1, h2]

/-- chunk を順に読むと buffer が値で埋まり、残りの iterator には触れない。 -/
theorem getBlob_chunks (rev : Versionstamp) (rest : RevIterator) :
    ∀ (cs : List (Nat × Bytes)) (pre : Bytes), (∀ c ∈ cs, c.2 ≠ []) →
    ByRevision.getBlob (pre ++ List.replicate ((cs.map Prod.snd).flatten.length) 0) pre.length
        (cs.map (fun c => (chunkKey rev c.1, RevValue.chunk c.2)) ++ rest)
      = .ok (pre ++ (cs.map Prod.snd).flatten, rest)
  | [], pre, _ => by
    simp only [List.map_nil, List.flatten_nil, List.length_nil, List.replicate_zero,
      List.append_nil, List.nil_append]
    cases rest with
    | nil => rfl
    | cons e rest => rw [ByRevision.getBlob, if_pos rfl]
  | c :: cs, pre, h => by
    have hc : c.2 ≠ [] := h c List.mem_cons_self
    have hpos : 0 < c.2.length := List.length_pos_of_ne_nil hc
    have ih := getBlob_chunks rev rest cs (pre ++ c.2) (fun d hd => h d (List.mem_cons_of_mem _ hd))
    simp only [List.map_cons, List.flatten_cons, List.cons_append, List.length_append]
    rw [ByRevision.getBlob, if_neg]
    · show ByRevision.getBlob _ _ _ = _
      rw [copyAt_zeros, ← List.length_append, ih, List.append_assoc]
    · simp only [List.length_append, List.length_replicate]
      omega

/-- 展開した列の先頭から record を一つ読み戻す。 -/
theorem getFromIterator_logEntries {r : RevRecord} (hsize : r.record.valueSize = r.record.value.length)
    (rest : RevIterator) :
    ByRevision.getFromIterator (logEntries r ++ rest) = .ok (some r.stored, rest) := by
  have hb := getBlob_chunks r.rev rest (chunksOf r.record.value) [] (fun c hc => chunk_ne_nil hc)
  rw [chunksOf_flatten, List.nil_append, List.nil_append, List.length_nil] at hb
  unfold logEntries
  rw [List.cons_append, ByRevision.getFromIterator]
  simp only [ByRevision.recordToTuple, hsize, hb, RevRecord.stored]
  rfl

/-- 範囲の端で chunk が切れると、値は 0 で埋まったままになる。 -/
theorem getFromIterator_header (r : RevRecord) :
    ByRevision.getFromIterator
        [(headerKey r.rev, .header (ByRevision.recordToTuple r.record))]
      = .ok (some { r.stored with
          record := { r.stored.record with value := List.replicate r.record.valueSize 0 } }, []) :=
  rfl

/-- revision の record を一つ読む。 -/
theorem ByRevision.get_of_mem (hs : SortedBy RevRecord.rev recs)
    (hm : m.entries = recs.flatMap logEntries) {r : RevRecord} (hr : r ∈ recs)
    (hsize : r.record.valueSize = r.record.value.length) :
    ByRevision.getFromIterator (ByRevision.getIterator m r.rev) = .ok (some r.stored, []) := by
  have hone : recs.filter (fun r' => decide (r'.rev = r.rev)) = [r] := by
    refine SortedBy.eq_of_mem_iff (hs.filter _) (SortedBy.singleton r) ?_
    intro a
    rw [List.mem_filter, List.mem_singleton, decide_eq_true_eq]
    exact ⟨fun h => hs.eq_of_index_eq h.1 hr h.2, fun h => by rw [h]; exact ⟨hr, rfl⟩⟩
  unfold ByRevision.getIterator
  rw [hm, filter_flatMap_logEntries recs (fun v => decide (v = r.rev)), hone]
  simpa using getFromIterator_logEntries hsize []

theorem ByRevision.get_of_not_mem (hm : m.entries = recs.flatMap logEntries) {rev : Versionstamp}
    (hr : ∀ r ∈ recs, r.rev ≠ rev) :
    ByRevision.getFromIterator (ByRevision.getIterator m rev) = .ok (none, []) := by
  have hnone : recs.filter (fun r' => decide (r'.rev = rev)) = [] :=
    List.filter_eq_nil_iff.mpr (fun r hr' => by simpa using hr r hr')
  unfold ByRevision.getIterator
  rw [hm, filter_flatMap_logEntries recs (fun v => decide (v = rev)), hnone]
  rfl

end KubeFdb
