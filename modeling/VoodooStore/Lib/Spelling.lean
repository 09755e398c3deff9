import VoodooStore.Lib.Reading

/-!
# Readers that take nothing but spellings

The converse of parsing: whatever such a reader accepts is the spelling of what
it returns, so that no value has a second spelling that is read as it.
-/
namespace Reading
open Effects
variable {ε α : Type} {bound : Nat}

/-- What the reader takes spells what it returns. -/
def Accepts (x : EStateM ε Position α) (spells : α → List UInt8 → Prop) : Prop :=
  ∀ read left a stop, x (.at read left) = .ok a stop →
    ∃ part rest, spells a part ∧ left = part ++ rest ∧ stop = .at (read ++ part) rest

theorem take_ok {corrupt : ε} {len : Nat} {read left part : List UInt8} {stop : Position}
    (done : take bound corrupt len (.at read left) = .ok part stop) :
    part.length = len ∧ ∃ rest, left = part ++ rest ∧ stop = .at (read ++ part) rest := by
  unfold take Position.at at done
  rw [get_bind] at done
  dsimp only at done
  split at done
  · split at done
    · rename_i inside
      rw [set_bind,pure_run,List.drop_left] at done
      cases done
      rw [List.length_append] at inside
      have size : (left.take len).length = len := by rw [List.length_take]; omega
      refine ⟨size,left.drop len,(List.take_append_drop len left).symm,?_⟩
      rw [Position.at,List.append_assoc,List.take_append_drop,List.length_append,size]
    · cases done
  · cases done

/-- A field of a fixed size. -/
theorem fixed_ok {corrupt : ε} {len : Nat} {from_bytes : List UInt8 → α} {to_bytes : α → List UInt8}
    (exact : ∀ bytes, bytes.length = len → to_bytes (from_bytes bytes) = bytes) {read left : List UInt8} {a : α} {stop : Position}
    (done : (do return from_bytes (← take bound corrupt len) : EStateM ε Position α) (.at read left) = .ok a stop) :
    ∃ rest, left = to_bytes a ++ rest ∧ stop = .at (read ++ to_bytes a) rest := by
  obtain ⟨part,reached,taken,done⟩ := bind_ok.mp done
  obtain ⟨size,rest,rfl,rfl⟩ := take_ok taken
  cases done
  rw [exact part size]
  exact ⟨rest,rfl,rfl⟩

/-- A byte string that was read to its end spells what was read. -/
theorem Accepts.readAll {x : EStateM ε Position α} {spelled : α → List UInt8 → Prop} (spells : Accepts x spelled) {corrupt : ε}
    {bytes : List UInt8} {a : α} (done : readAll corrupt x bytes = .ok a) : spelled a bytes := by
  unfold Reading.readAll at done
  have start : (Position.at [] bytes) = ⟨bytes,0⟩ := rfl
  rw [← start] at done
  cases result : x (.at [] bytes) with
  | error e s =>
    rw [result] at done
    cases done
  | ok b stop =>
    rw [result] at done
    dsimp only at done
    obtain ⟨part,rest,is,rfl,rfl⟩ := spells [] bytes b stop result
    split at done
    · rename_i whole
      cases done
      have empty : rest.length = 0 := by
        simp only [Position.finished,Position.at,List.nil_append,List.length_append,decide_eq_true_eq] at whole
        omega
      rw [List.length_eq_zero_iff.mp empty,List.append_nil]
      exact is
    · cases done

end Reading
