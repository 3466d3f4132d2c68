import KubeFdb.Properties.Chain
import KubeFdb.System.Store

/-!
# 鎖の形

書き込みだけの run では、commit された record がすべて残る。書き込みの操作は残っている record を見て次を
書くので、どの鍵の鎖も順に書かれたものになる（`Store.Written.wellChained`）。
-/

namespace KubeFdb

open Tuple

variable {cfg : Config} {s s' : Store} {recs' : List RevRecord}

/-- 一手は、どの鍵の鎖も順に書かれたものに保つ。 -/
theorem Store.Effect.wellChained {a : StoreLabel} (h : ∀ k, WellChained (chainOf s.committed k))
    (he : Store.Effect cfg s s.committed a s' recs') (k : Key) :
    WellChained (chainOf s'.committed k) := by
  cases he with
  | idle _ _ v hv hv63 calls hcalls => exact h k
  | wrote op lastWriteUUID uuid v record size hcan ht hw =>
    show WellChained (chainOf (s.committed ++ [(append cfg v uuid record size s.db).1]) k)
    rw [chainOf_concat]
    split
    · next hk =>
      obtain rfl : op.key = k := hw.key_eq.symm.trans hk
      exact (h op.key).concat (WriteOp.Writes.chainStep hw (append_record cfg v uuid record size s.db))
    · exact h k
  | compacted i n v known endRev c c' db' begin_ hcan hi hrun hb hbatch heq => exact h k

theorem Store.Written.wellChained (h : s.Written cfg) (k : Key) :
    WellChained (chainOf s.committed k) := by
  obtain ⟨as, hclient, hr⟩ := h
  refine (run_invariant_of (fun _ a => a.isClient = true)
    (P := fun s => Store.Inv cfg s s.committed ∧ ∀ k, WellChained (chainOf s.committed k)) ?_
    ⟨Store.init_inv cfg, fun _ => eachAfter_nil⟩ (stepsMeet_of_forall hclient) hr).2 k
  rintro s a s' ⟨h, hch⟩ hc hs
  obtain ⟨recs', he, h'⟩ := Store.inv_step h hs
  exact ⟨he.committed_eq hc ▸ h', he.wellChained hch⟩

/-- **書き込みだけの run では、どの鍵の鎖も作成と更新と削除の順に並ぶ。** 各 record の `PrevRevision` は直前の
record の revision で、最初の record だけが dummy を持つ。`GetCreateRevision` は、その record までの最後の
作成の revision である。 -/
theorem version_chains_wellFormed (cfg : Config) (s : Store) (h : s.Written cfg) :
    s.db.Holds s.committed ∧ ∀ k,
      (chainOf s.committed k).map RevRecord.flags ∈ chainPattern.matches' ∧
      ∀ pre r post, chainOf s.committed k = pre ++ r :: post →
        (∀ last, pre.getLast? = some last → r.record.prevRevision = last.rev) ∧
        (r.record.prevRevision = dummyVersionstamp ↔ pre = []) ∧
        ((pre ++ [r]).filter (fun r => r.record.isCreate)).getLast?.map RevRecord.rev
          = some r.indexed.getCreateRevision := by
  have hold := h.inv.1.tracks.holds
  refine ⟨hold, fun k => ⟨wellChained_matches (h.wellChained k), fun pre r post hc => ?_⟩⟩
  obtain ⟨hwell, hstep⟩ := EachAfter.at (hc ▸ h.wellChained k)
  refine ⟨fun last hl => by simpa [hl] using hstep.prev, ?_, ?_⟩
  · rw [hstep.prev]
    cases hl : pre.getLast? with
    | none => simpa using List.getLast?_eq_none_iff.mp hl
    | some last =>
      -- 残っている record の revision は dummy にならない
      have hmem : last ∈ chainOf s.committed k :=
        hc ▸ List.mem_append_left _ (List.mem_of_getLast? hl)
      have hne := (hold.wf last (List.mem_filter.mp hmem).1).rev.ne_dummy
      have hpre : pre ≠ [] := fun he => by simp [he] at hl
      simp [hne, hpre]
  · rw [wellChained_lastCreate hwell, List.getLast?_concat]
    rfl

/-- 作って更新し、消して作り直す run。失敗する作成と更新も混ざる。 -/
def recreateRun : List StoreLabel :=
  [.write (.create [47, 97] [1] 0) 0 1 2, .write (.create [47, 97] [9] 0) 0 2 3,
    .write (.update [47, 97] [2] 2 0) 0 3 4, .write (.update [47, 97] [3] 2 0) 0 4 5,
    .write (.delete [47, 97] 4) 0 5 6, .write (.create [47, 97] [4] 0) 0 6 7]

theorem version_chains_wellFormed_of_recreated :
    ∃ s, runSteps (Store.step .default) .init recreateRun = some s ∧
      (chainOf s.committed [47, 97]).map RevRecord.revision = [2, 4, 6, 7] ∧
      (chainOf s.committed [47, 97]).map RevRecord.flags ∈ chainPattern.matches' := by
  have h : (runSteps (Store.step .default) .init recreateRun).any (fun s =>
      decide ((chainOf s.committed [47, 97]).map RevRecord.revision = [2, 4, 6, 7])) = true := by
    decide +kernel
  obtain ⟨s, hs, h⟩ := exists_of_any_decide h
  exact ⟨s, hs, h,
    ((version_chains_wellFormed .default s ⟨_, by decide, hs⟩).2 [47, 97]).1⟩

end KubeFdb
