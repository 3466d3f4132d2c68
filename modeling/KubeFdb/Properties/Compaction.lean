import KubeFdb.Properties.CompactBatch

/-!
# ほかの transaction が挟まらない compaction

`Compact` は batch に分かれるが、ほかの書き込みが挟まらなければ、どこで切れても `endRev` までの
record を始めの列で判定してまとめて消すことと同じである（`compact_eq`）。
-/

namespace KubeFdb

open Tuple

variable {recs : List RevRecord} {db : Db} {begin_ : Option Versionstamp} {endRev : Int}

/-- 読んだ record はどれも、最後に読んだ revision 以下である。 -/
theorem le_lastVisited {visited : List RevRecord} (hs : SortedBy RevRecord.rev visited)
    {rev : Versionstamp} (hl : lastVisited visited = some rev) :
    ∀ r ∈ visited, r.rev ≤ rev := by
  obtain ⟨z, hz, rfl⟩ := Option.map_eq_some_iff.mp hl
  exact (hs.getLast?_eq_some_iff.mp hz).2

/-- 古い record を先に読んでも、まとめて読んでも、残る列は同じである。 -/
theorem compactRecs_append {visited later : List RevRecord}
    (hlt : ∀ r ∈ visited, ∀ r' ∈ later, r.rev < r'.rev) :
    compactRecs (compactRecs recs visited) later = compactRecs recs (visited ++ later) := by
  -- 後で読む record の判定は、先に消した record によらない
  have hdis : ∀ r ∈ later, discards (compactRecs recs visited) r = discards recs r := by
    intro r hr
    rw [Bool.eq_iff_iff, discards_iff, discards_iff]
    refine or_congr_left ⟨?_, ?_⟩
    · rintro ⟨r', hr', hk, hrev⟩
      exact ⟨r', (mem_compactRecs.mp hr').1, hk, hrev⟩
    · rintro ⟨r', hr', hk, hrev⟩
      refine ⟨r', mem_compactRecs.mpr ⟨hr', fun hc => ?_⟩, hk, hrev⟩
      exact absurd (hlt r' hc.1 r hr) (not_lt.mpr hrev.le)
  calc compactRecs (compactRecs recs visited) later
      = (compactRecs recs visited).filter (fun r => !(decide (r ∈ later) && discards recs r)) := by
        refine List.filter_congr fun r _ => ?_
        by_cases hl : r ∈ later
        · rw [hdis r hl]
        · simp [hl]
    _ = compactRecs recs (visited ++ later) := by
        unfold compactRecs
        rw [List.filter_filter]
        refine List.filter_congr fun r _ => ?_
        cases hd : discards recs r with
        | true => simp [Bool.and_comm]
        | false => simp

theorem lastVisited_append (visited later : List RevRecord) :
    lastVisited (visited ++ later) = (lastVisited later).or (lastVisited visited) := by
  unfold lastVisited
  rw [List.getLast?_append]
  cases later.getLast? with
  | none => rfl
  | some r => rfl

/-- 続けて走らせた compaction は、まとめて読む compaction と同じである。 -/
theorem Compacted.append {visited later : List RevRecord} {db₁ db₂ : Db}
    (h : Compacted recs visited db db₁) (h' : Compacted (compactRecs recs visited) later db₁ db₂)
    (hlt : ∀ r ∈ visited, ∀ r' ∈ later, r.rev < r'.rev) :
    Compacted recs (visited ++ later) db db₂ where
  holds := compactRecs_append hlt ▸ h'.holds
  version := h'.version.trans h.version
  byKeyCurrent := h'.byKeyCurrent.trans h.byKeyCurrent
  watch := h'.watch.trans h.watch
  latestRev := h'.latestRev.trans h.latestRev
  compactRev := by rw [h'.compactRev, h.compactRev, lastVisited_append, Option.or_assoc]

/-- 何を読んだかで、compaction の後の database は決まる。 -/
theorem Compacted.unique {visited : List RevRecord} {db₁ db₂ : Db} (h₁ : Compacted recs visited db db₁)
    (h₂ : Compacted recs visited db db₂) : db₁ = db₂ := by
  have hlog : db₁.byRevision = db₂.byRevision :=
    OrdMap.eq_of_mem_iff fun e => by rw [h₁.holds.log, h₂.holds.log]
  have hindex : db₁.byKeyAndRevision = db₂.byKeyAndRevision :=
    OrdMap.eq_of_mem_iff fun e => by rw [h₁.holds.index, h₂.holds.index]
  have hversion := h₁.version.trans h₂.version.symm
  have hcurrent := h₁.byKeyCurrent.trans h₂.byKeyCurrent.symm
  have hwatch := h₁.watch.trans h₂.watch.symm
  have hcompact := h₁.compactRev.trans h₂.compactRev.symm
  have hlatest := h₁.latestRev.trans h₂.latestRev.symm
  cases db₁
  cases db₂
  rw [Db.mk.injEq]
  exact ⟨hversion, hlog, hindex, hcurrent, hwatch, hcompact, hlatest⟩

/-- 次の batch は、前の batch が読まなかった record から始まる。 -/
theorem compactTodo_next {n : Nat} (hs : SortedBy RevRecord.rev recs) {last : Versionstamp}
    (hl : lastVisited (compactVisits recs begin_ endRev n) = some last) :
    compactTodo (compactRecs recs (compactVisits recs begin_ endRev n)) (some last) endRev
      = (compactTodo recs begin_ endRev).drop (n + 1) := by
  have htodo := compactTodo_sorted hs begin_ endRev
  have hle := le_lastVisited (compactVisits_sorted hs begin_ endRev n) hl
  obtain ⟨z, hz, rfl⟩ := Option.map_eq_some_iff.mp hl
  have hzv : z ∈ compactVisits recs begin_ endRev n := List.mem_of_getLast? hz
  refine SortedBy.eq_of_mem_iff (compactTodo_sorted (hs.filter _) _ _)
    (htodo.sublist (List.drop_sublist _ _)) (fun r => ⟨fun hr => ?_, fun hr => ?_⟩)
  · obtain ⟨hr, hlt, hcut⟩ := mem_compactTodo.mp hr
    have hlt := hlt _ rfl
    have hmem : r ∈ compactTodo recs begin_ endRev := mem_compactTodo.mpr
      ⟨(mem_compactRecs.mp hr).1, fun b hb => ((mem_compactTodo.mp
        (mem_of_mem_compactVisits hzv)).2.1 b hb).trans hlt, hcut⟩
    rw [← List.take_append_drop (n + 1) (compactTodo recs begin_ endRev)] at hmem
    rcases List.mem_append.mp hmem with hm | hm
    · exact absurd (hle r hm) (not_le.mpr hlt)
    · exact hm
  · obtain ⟨hm, hb, hcut⟩ := mem_compactTodo.mp (List.mem_of_mem_drop hr)
    have hlt : z.rev < r.rev := htodo.take_lt_drop (n + 1) hzv hr
    refine mem_compactTodo.mpr ⟨mem_compactRecs.mpr ⟨hm, fun hc => ?_⟩, fun b hb => ?_, hcut⟩
    · exact absurd (hle r hc.1) (not_le.mpr hlt)
    · rw [← Option.some.inj hb]
      exact hlt

/-- 残りの batch をすべて走らせたとき。 -/
theorem compact_processRange (splits : Nat → Nat) : ∀ (fuel i : Nat) {recs : List RevRecord} {db : Db}
    {begin_ : Option Versionstamp} {c : CompactCall}, db.Holds recs → c.status = .running →
    c.beginKey = begin_.map (chunkKey · maxInt64) →
    (compactTodo recs begin_ endRev).length < fuel →
    ∃ c' db', processRange CompactProcessor.processor (compactRange endRev) splits fuel i c db
        = (c', db') ∧ c'.status = .done ∧
      Compacted recs (compactTodo recs begin_ endRev) db db'
  | 0, _, _, _, _, _, _, _, _, hfuel => absurd hfuel (Nat.not_lt_zero _)
  | fuel + 1, i, recs, db, begin_, c, h, hrun, hb, hfuel => by
    have hbatch := compact_batch h hb endRev (splits i)
    rw [processRange, if_pos hrun]
    simp only
    generalize c.batch CompactProcessor.processor (compactRange endRev) (splits i) db = out at hbatch
    obtain ⟨c₁, db₁⟩ := out
    by_cases hn : splits i < (compactTodo recs begin_ endRev).length
    · -- 時間が来たので、続きの batch を走らせる
      obtain ⟨hrun₁, hb₁⟩ := hbatch.running hn
      have hne : compactVisits recs begin_ endRev (splits i) ≠ [] := by
        unfold compactVisits
        exact List.ne_nil_of_length_pos (by rw [List.length_take]; omega)
      obtain ⟨z, hz⟩ := Option.isSome_iff_exists.mp (List.getLast?_isSome.mpr hne)
      have hl : lastVisited (compactVisits recs begin_ endRev (splits i)) = some z.rev := by
        rw [lastVisited, hz, Option.map_some]
      have hnext := compactTodo_next h.sorted hl
      rw [hl] at hb₁
      obtain ⟨c', db', hproc, hdone, hcomp⟩ := compact_processRange splits fuel (i + 1) hbatch.holds
        hrun₁ hb₁ (by rw [hnext, List.length_drop]; omega)
      refine ⟨c', db', hproc, hdone, ?_⟩
      rw [hnext] at hcomp
      have hall := hbatch.toCompacted.append hcomp (fun r hr r' hr' =>
        (compactTodo_sorted h.sorted begin_ endRev).take_lt_drop (splits i + 1) hr hr')
      rw [compactVisits, List.take_append_drop] at hall
      exact hall
    · obtain ⟨hdone, -⟩ := hbatch.done (not_lt.mp hn)
      have hall : compactVisits recs begin_ endRev (splits i) = compactTodo recs begin_ endRev :=
        List.take_of_length_le (by omega)
      exact ⟨c₁, db₁, processRange_of_ne_running (by rw [hdone]; decide) _ _, hdone,
        hall ▸ hbatch.toCompacted⟩

/-- 列の record は log の entry より多くない。 -/
theorem Db.Holds.length_le (h : db.Holds recs) : recs.length ≤ db.byRevision.entries.length := by
  rw [h.log]
  clear h
  induction recs with
  | nil => simp
  | cons r rest ih =>
    rw [List.flatMap_cons, List.length_append, logEntries, List.length_cons, List.length_cons]
    omega

/-- `Compact` は必ず終わり、`endRev` までの record を読む。 -/
theorem compact_eq (cfg : Config) (h : db.Holds recs) (hm : cfg.useSequentialId = false)
    (endRev : Int) (splits : Nat → Nat) :
    ∃ db', compact cfg endRev splits db = (.done, db') ∧
      Compacted recs (compactTodo recs none endRev) db db' := by
  have hlen : (compactTodo recs none endRev).length < db.byRevision.entries.length + 1 :=
    Nat.lt_succ_of_le ((List.length_filter_le _ _).trans h.length_le)
  obtain ⟨c', db', hproc, hdone, hcomp⟩ := compact_processRange splits
    (db.byRevision.entries.length + 1) 0 h (c := startCompact) rfl
    (show startCompact.beginKey = (none : Option Versionstamp).map (chunkKey · maxInt64) from rfl) hlen
  refine ⟨db', ?_, hcomp⟩
  unfold compact
  rw [if_neg (by simp [hm])]
  simp only [hproc, hdone]

/-- 連番の設定では、`Compact` は何もしない。 -/
theorem compact_of_sequential {cfg : Config} (hm : cfg.useSequentialId = true) (endRev : Int)
    (splits : Nat → Nat) (db : Db) : compact cfg endRev splits db = (.done, db) := by
  unfold compact
  rw [if_pos hm]

end KubeFdb
