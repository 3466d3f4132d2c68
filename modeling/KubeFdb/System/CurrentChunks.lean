import KubeFdb.System.Store

/-!
# 現在の値の chunk

`byKeyCurrent` ができる前に書かれた store には chunk がない。そこから始めても、どの鍵の chunk も、ないか、
鍵の最新の record の値をちょうど持つ（`current_chunks_exact`）。`Replace` は前の大きさを索引から読むが、
chunk があるのは、それを書いた record が鍵の最新のときだけなので、古い chunk は残らない。
-/

namespace KubeFdb

open Tuple

/-- `byKeyCurrent` ができる前に書かれた store。record は何でもよく、chunk はない。空の store も含む。 -/
structure Store.Legacy (cfg : Config) (s : Store) : Prop where
  holds : s.db.Holds s.committed
  bounded : s.db.Bounded cfg s.committed
  noChunks : s.db.byKeyCurrent = .empty
  compacts : s.compacts = []
  version : s.db.version < 2 ^ 63

variable {cfg : Config} {s : Store}

theorem Store.init_legacy (cfg : Config) : Store.init.Legacy cfg :=
  ⟨Db.empty_holds, Db.empty_bounded cfg, rfl, rfl, by decide⟩

theorem Store.Legacy.inv (h : s.Legacy cfg) : s.Inv cfg s.committed where
  tracks :=
    { holds := h.holds
      sorted := h.holds.sorted
      wf := h.holds.wf
      sub := fun r hr => hr
      lastLive := fun k r hn _ => (newest_mem hn).1
      current := by rw [h.noChunks]; exact currentOf_empty _ }
  bounded := h.bounded
  begins := fun c hc => by rw [h.compacts] at hc; exact absurd hc List.not_mem_nil
  sequential := fun _ => h.compacts
  version := h.version

/-- 履歴の最後の record を持つ鍵の chunk は、database に残る最新の record のものである。 -/
theorem Db.Tracks.currentOf {db : Db} {recs hist : List RevRecord} (h : db.Tracks recs hist) :
    CurrentOf recs db.byKeyCurrent := by
  intro k
  rcases h.current k with hno | ⟨r, hn, hd, hc⟩
  · exact Or.inl hno
  · exact Or.inr ⟨r, h.newest_eq hn hd, hd, hc⟩

/-- 書き込みと compaction がどう交ざっても、鍵の chunk は、ないか、鍵の最新の record の値をちょうど持つ。
最新の record が tombstone か、record が残っていなければ、chunk はない。 -/
theorem current_chunks_exact (cfg : Config) {s₀ s : Store} (h₀ : s₀.Legacy cfg)
    {as : List StoreLabel} (hrun : runSteps (Store.step cfg) s₀ as = some s) :
    ∃ recs, s.db.Holds recs ∧ ∀ k,
      (NoChunks s.db.byKeyCurrent k ∨
        ∃ r, newest RevRecord.key recs k = some r ∧ r.record.isDelete = false ∧
          Chunked s.db.byKeyCurrent k r.record.value) ∧
      ((∀ r, newest RevRecord.key recs k = some r → r.record.isDelete = true) →
        NoChunks s.db.byKeyCurrent k) := by
  obtain ⟨recs, h, -⟩ := h₀.inv.run hrun
  refine ⟨recs, h.tracks.holds, fun k => ⟨h.tracks.currentOf k, fun hdead => ?_⟩⟩
  rcases h.tracks.currentOf k with hno | ⟨r, hn, hd, -⟩
  · exact hno
  · exact absurd (hd.symm.trans (hdead r hn)) (by decide)

/-- chunk を捨てた store。 -/
def Store.withoutChunks (s : Store) : Store := { s with db := { s.db with byKeyCurrent := .empty } }

theorem Store.Written.withoutChunks_legacy (h : s.Written cfg) (hc : s.compacts = []) :
    s.withoutChunks.Legacy cfg := by
  have hi := h.inv.1
  exact ⟨hi.tracks.holds.congr rfl rfl, ⟨hi.bounded.le, hi.bounded.pos, hi.bounded.lt⟩, rfl, hc,
    hi.version⟩

/-- chunk のない `/a` と、それを NUL で延ばした鍵を、書き換えて消す run。 -/
def migrateRun : List StoreLabel :=
  [.write (.update [47, 97] [3] 2 0) 0 3 4, .write (.update [47, 97, 0] [4] 3 0) 0 4 5,
    .write (.delete [47, 97] 4) 0 5 6]

theorem current_chunks_exact_of_migrated :
    ∃ s₀ s, s₀.committed.map RevRecord.key = [[47, 97], [47, 97, 0]] ∧
      runSteps (Store.step .default) s₀ migrateRun = some s ∧
      ∃ recs, s.db.Holds recs ∧ ∀ k,
        (NoChunks s.db.byKeyCurrent k ∨
          ∃ r, newest RevRecord.key recs k = some r ∧ r.record.isDelete = false ∧
            Chunked s.db.byKeyCurrent k r.record.value) ∧
        ((∀ r, newest RevRecord.key recs k = some r → r.record.isDelete = true) →
          NoChunks s.db.byKeyCurrent k) := by
  have h : (runSteps (Store.step .default) .init [.write (.create [47, 97] [1] 0) 0 1 2,
      .write (.create [47, 97, 0] [2] 0) 0 2 3]).any (fun w =>
        decide (w.compacts = [] ∧ w.withoutChunks.committed.map RevRecord.key
          = [[47, 97], [47, 97, 0]]) &&
        (runSteps (Store.step .default) w.withoutChunks migrateRun).isSome) = true := by
    decide +kernel
  obtain ⟨w, hw, h⟩ := (Option.any_eq_true _ _).mp h
  obtain ⟨h1, h2⟩ := Bool.and_eq_true_iff.mp h
  obtain ⟨hc, hk⟩ := of_decide_eq_true h1
  obtain ⟨s, hs⟩ := Option.isSome_iff_exists.mp h2
  have hwritten : w.Written .default := ⟨_, by decide, hw⟩
  exact ⟨_, s, hk, hs, current_chunks_exact .default (hwritten.withoutChunks_legacy hc) hs⟩

end KubeFdb
