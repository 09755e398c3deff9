import VoodooStore.Interleaving

/-!
# Numbers of transactions

The log keeps the number of every transaction that was committed, and only
grows. A transaction begins with a number above all those in the log, also after
a reopening, so what was committed under a number is never committed again.
-/
namespace VoodooStore
open Effects Frames
set_option linter.unusedSimpArgs false

section
variable [Hashes]

/-- A transaction of this number has written to the log. -/
def Store.Used (store : Store) (tx_id : UInt64) : Prop := ∃ r ∈ records store.file, r.tx_id = tx_id

theorem Store.Used.grows {store t : Store} {tx_id : UInt64} (used : store.Used tx_id)
    (grown : records store.file <+: records t.file) : t.Used tx_id := by
  obtain ⟨r,member,same⟩ := used
  exact ⟨r,grown.subset member,same⟩

theorem Store.Used.lt {store : Store} {tx_id : UInt64} (used : store.Used tx_id) (sound : store.Sound) : tx_id < store.next_tx_id := by
  obtain ⟨r,member,rfl⟩ := used
  exact sound.log.identified r member

theorem begin_unused {store : Store} {tx : Transaction} {tx_id : UInt64} (sound : store.Sound) (begun : begin_tx store = .ok tx)
    (used : store.Used tx_id) : tx_id ≠ tx.tx_id := by
  obtain ⟨-,-,number,-⟩ := begin_view begun
  rw [number]
  exact UInt64.ne_of_lt (used.lt sound)

/-! ## The log grows -/

theorem Staged.grows {tx u : Transaction} {rs : List LogRecord} {piece : Bytes} (staged : Staged tx u rs piece) (sound : tx.Sound)
    (whole : fragment tx.store.file = []) (torn : recordHead piece = .torn) : records tx.store.file <+: records u.store.file := by
  obtain ⟨read,-⟩ := records_grow sound.store.header.long whole staged.grown.fits torn
  rw [staged.grown.file,read]
  exact List.prefix_append _ _

theorem Written.read {tx u : Transaction} {rs : List LogRecord} {r : LogRecord} (written : Written tx u rs r) (sound : tx.Sound)
    (whole : fragment tx.store.file = []) : records u.store.file = records tx.store.file ++ (rs ++ [r]) := by
  obtain ⟨read,-⟩ := records_grow sound.store.header.long whole written.fits recordHead_nil
  rw [List.append_nil] at read
  rw [written.file,read]

theorem Stages.grows {ε α : Type} {x : EStateM ε Transaction α} {tx : Transaction} (stages : Stages x) (sound : tx.Sound)
    (whole : fragment tx.store.file = []) : records tx.store.file <+: records (after x tx).store.file := by
  obtain ⟨rs,staged⟩ := stages tx
  exact staged.grows sound whole recordHead_nil

theorem commit_used {io : Io} {tx u : Transaction} {x : Unit} (sound : tx.Sound) (whole : fragment tx.store.file = [])
    (committed : commit io tx = .ok x u) : records tx.store.file <+: records u.store.file ∧ u.store.Used tx.tx_id := by
  obtain ⟨rs,r,written,-⟩ := commit_ok committed
  have read := written.read sound whole
  refine ⟨read ▸ List.prefix_append _ _,r,?_,written.mine r (by simp)⟩
  rw [read]
  simp

theorem commit_failed_grows {io : Io} {tx u : Transaction} {e : EngineError} (sound : tx.Sound) (whole : fragment tx.store.file = [])
    (failed : commit io tx = .error e u) : records tx.store.file <+: records u.store.file := by
  rcases commit_error failed with ⟨rs,piece,staged,torn⟩ | ⟨rs,r,written,-,-,-⟩
  · exact staged.grows sound whole torn.torn
  · rw [written.read sound whole]
    exact List.prefix_append _ _

/-- The computation keeps a store sound, and what its log holds. -/
structure Grows {ε α : Type} (x : EStateM ε Store α) : Prop where
  steady : Steady x
  records : ∀ store, store.Sound → fragment store.file = [] → records store.file <+: records (after x store).file

theorem grows_of_reads {ε α : Type} {x : EStateM ε Store α} (reads : Reads x) : Grows x := by
  refine ⟨steady_of_reads reads,?_⟩
  intro store sound whole
  rw [reads store]

theorem Grows.bind {ε α β : Type} {x : EStateM ε Store α} {f : α → EStateM ε Store β} (first : Grows x) (second : ∀ a, Grows (f a)) :
    Grows (x >>= f) := by
  refine ⟨first.steady.bind (fun a => (second a).steady),?_⟩
  intro store sound whole
  have reached := first.steady store sound whole
  have grown := first.records store sound whole
  unfold after at reached grown ⊢
  rw [bind_run]
  cases result : x store with
  | ok a t =>
    rw [result] at reached grown
    exact grown.trans ((second a).records t reached.1 reached.2)
  | error e t =>
    rw [result] at grown
    exact grown

theorem Grows.rethrow {ε φ α : Type} {x : EStateM ε Store α} {f : ε → φ} (grows : Grows x) : Grows (rethrow f x) := by
  refine ⟨grows.steady.rethrow,?_⟩
  intro store sound whole
  have grown := grows.records store sound whole
  unfold after at grown ⊢
  unfold Effects.rethrow
  cases result : x store with
  | ok a t => rw [result] at grown; exact grown
  | error e t => rw [result] at grown; exact grown

/-- A transaction of its own leaves its number in the log when it succeeds. -/
theorem within_used {ε α : Type} {wrap : EngineError → ε} {io : Io} {body : EStateM ε Transaction α} {store t : Store} {a : α}
    (stages : Stages body) (sound : store.Sound) (whole : fragment store.file = []) (done : within wrap io body store = .ok a t) :
    t.Used store.next_tx_id := by
  unfold within at done
  cases begun : begin_tx store with
  | error e => rw [begun] at done; cases done
  | ok tx =>
    rw [begun] at done
    dsimp only at done
    obtain ⟨begins,file⟩ := begin_sound sound begun
    obtain ⟨bodySound,bodyWhole⟩ := stages.sound begins (by rw [file]; exact whole)
    have carried := (stages.carries tx).tx_id
    obtain ⟨-,-,number,-⟩ := begin_view begun
    unfold after at bodySound bodyWhole carried
    cases result : (do let a ← body; rethrow wrap (commit io); return a : EStateM ε Transaction α) tx with
    | error e u => rw [result] at done; cases done
    | ok b u =>
      rw [result] at done
      cases done
      obtain ⟨_,middle,bodyDone,rest⟩ := bind_ok.mp result
      obtain ⟨_,_,committed,returned⟩ := bind_ok.mp rest
      cases returned
      rw [bodyDone] at bodySound bodyWhole carried
      rw [← number,← carried]
      exact (commit_used bodySound bodyWhole (rethrow_ok.mp committed)).2

theorem within_grows {ε α : Type} {wrap : EngineError → ε} {io : Io} {body : EStateM ε Transaction α} (durable : io.Durable)
    (stages : Stages body) : Grows (within wrap io body) := by
  refine ⟨within_steady durable stages,?_⟩
  intro store sound whole
  unfold after within
  cases begun : begin_tx store with
  | error e => exact List.prefix_rfl
  | ok tx =>
    dsimp only
    obtain ⟨begins,file⟩ := begin_sound sound begun
    have whole_tx : fragment tx.store.file = [] := by rw [file]; exact whole
    obtain ⟨bodySound,bodyWhole⟩ := stages.sound begins whole_tx
    have grown := stages.grows begins whole_tx
    rw [file] at grown
    unfold after at bodySound bodyWhole grown
    cases bodyDone : body tx with
    | error e u =>
      rw [bodyDone] at grown
      rw [bind_of_error bodyDone]
      exact grown
    | ok a u =>
      rw [bodyDone] at bodySound bodyWhole grown
      rw [bind_of_ok bodyDone]
      cases committed : commit io u with
      | ok x w =>
        rw [bind_of_ok (rethrow_ok.mpr committed)]
        exact grown.trans (commit_used bodySound bodyWhole committed).1
      | error e w =>
        rw [bind_of_error (rethrow_error.mpr ⟨e,committed,rfl⟩)]
        exact grown.trans (commit_failed_grows bodySound bodyWhole committed)

end

end VoodooStore
