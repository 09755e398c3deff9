import VoodooStore.Lib.Spelling
import VoodooStore.JobRecords

/-!
# Records are read and written in one way

The converse of what the modules of the records prove: whatever a decoder
accepts is exactly what its encoder writes, so that no record has a second
spelling.
-/
namespace VoodooStore
open Effects Reading
set_option linter.unusedSimpArgs false

/-! ## Fields -/

theorem i64_to_from_le {bytes : Bytes} (size : bytes.length = 8) : (Int64.from_le_bytes bytes).to_le_bytes = bytes := by
  rw [Int64.from_le_bytes,Int64.to_le_bytes]
  simp [u64_to_from_le size]

theorem i32_to_from_le {bytes : Bytes} (size : bytes.length = 4) : (Int32.from_le_bytes bytes).to_le_bytes = bytes := by
  rw [Int32.from_le_bytes,Int32.to_le_bytes]
  simp [u32_to_from_le size]

section
variable {ε : Type} [Corrupt ε] {read left : Bytes} {stop : Position}

theorem u8_ok {byte : UInt8} (done : (Fields.u8 : Fields ε UInt8) (.at read left) = .ok byte stop) :
    ∃ rest, left = [byte] ++ rest ∧ stop = .at (read ++ [byte]) rest := by
  obtain ⟨part,reached,taken,done⟩ := bind_ok.mp done
  obtain ⟨size,rest,rfl,rfl⟩ := take_ok taken
  obtain ⟨only,rfl⟩ := List.length_eq_one_iff.mp size
  obtain ⟨is,rfl⟩ := lift_eq_ok.mp done
  cases is
  exact ⟨rest,rfl,rfl⟩

theorem u32_ok {x : UInt32} (done : (Fields.u32 : Fields ε UInt32) (.at read left) = .ok x stop) :
    ∃ rest, left = x.to_le_bytes ++ rest ∧ stop = .at (read ++ x.to_le_bytes) rest := fixed_ok (fun _ => u32_to_from_le) done

theorem u64_ok {x : UInt64} (done : (Fields.u64 : Fields ε UInt64) (.at read left) = .ok x stop) :
    ∃ rest, left = x.to_le_bytes ++ rest ∧ stop = .at (read ++ x.to_le_bytes) rest := fixed_ok (fun _ => u64_to_from_le) done

theorem i32_ok {x : Int32} (done : (Fields.i32 : Fields ε Int32) (.at read left) = .ok x stop) :
    ∃ rest, left = x.to_le_bytes ++ rest ∧ stop = .at (read ++ x.to_le_bytes) rest := fixed_ok (fun _ => i32_to_from_le) done

theorem i64_ok {x : Int64} (done : (Fields.i64 : Fields ε Int64) (.at read left) = .ok x stop) :
    ∃ rest, left = x.to_le_bytes ++ rest ∧ stop = .at (read ++ x.to_le_bytes) rest := fixed_ok (fun _ => i64_to_from_le) done

theorem array_16_ok {id : ByteArr 16} (done : (Fields.array_16 : Fields ε (ByteArr 16)) (.at read left) = .ok id stop) :
    ∃ rest, left = id.val ++ rest ∧ stop = .at (read ++ id.val) rest := by
  obtain ⟨part,reached,taken,done⟩ := bind_ok.mp done
  obtain ⟨size,rest,rfl,rfl⟩ := take_ok taken
  rw [dif_pos size] at done
  cases done
  exact ⟨rest,rfl,rfl⟩

theorem bytes_ok {value : Bytes} (done : (Fields.bytes : Fields ε Bytes) (.at read left) = .ok value stop) :
    value.length < 2 ^ 32 ∧ ∃ rest, left = counted value ++ rest ∧ stop = .at (read ++ counted value) rest := by
  obtain ⟨len,reached,first,done⟩ := bind_ok.mp done
  obtain ⟨behind,rfl,rfl⟩ := u32_ok first
  obtain ⟨size,rest,rfl,rfl⟩ := take_ok done
  have is : UInt32.ofNat value.length = len := by rw [size,UInt32.ofNat_toNat]
  refine ⟨by rw [size]; exact len.toNat_lt,rest,?_,?_⟩
  · rw [counted,is,List.append_assoc]
  · rw [counted,is,List.append_assoc]

theorem bool_ok {x : Bool} (done : (Fields.bool : Fields ε Bool) (.at read left) = .ok x stop) :
    ∃ rest, left = write_bool x ++ rest ∧ stop = .at (read ++ write_bool x) rest := by
  obtain ⟨tag,reached,first,done⟩ := bind_ok.mp done
  obtain ⟨rest,rfl,rfl⟩ := u8_ok first
  by_cases off : tag = 0
  · subst off
    cases done
    exact ⟨rest,rfl,rfl⟩
  · rw [if_neg off] at done
    by_cases on : tag = 1
    · subst on
      cases done
      exact ⟨rest,rfl,rfl⟩
    · rw [if_neg on] at done
      cases done

/-- A value that may be absent, and how it is spelled if it is not. -/
theorem option_ok {α : Type} {value : Fields ε α} {spelled : α → Bytes → Prop} (spells : Accepts value spelled) {x : Option α}
    (done : Fields.option value (.at read left) = .ok x stop) :
    (x = none ∧ ∃ rest, left = [0] ++ rest ∧ stop = .at (read ++ [0]) rest) ∨
    ∃ a part rest, x = some a ∧ spelled a part ∧ left = ([1] ++ part) ++ rest ∧ stop = .at (read ++ ([1] ++ part)) rest := by
  obtain ⟨tag,reached,first,done⟩ := bind_ok.mp done
  obtain ⟨behind,rfl,rfl⟩ := u8_ok first
  by_cases absent : tag = 0
  · subst absent
    cases done
    exact .inl ⟨rfl,behind,rfl,rfl⟩
  · rw [if_neg absent] at done
    by_cases present : tag = 1
    · subst present
      obtain ⟨a,reached,second,done⟩ := bind_ok.mp done
      obtain ⟨part,rest,is,rfl,rfl⟩ := spells _ _ _ _ second
      cases done
      exact .inr ⟨a,part,rest,rfl,is,by rw [List.append_assoc],by rw [List.append_assoc]⟩
    · rw [if_neg present] at done
      cases done

end

/-! ## Jobs and schedules -/

section
variable {ε : Type} [Panics ε]

theorem slice_array_splits {n : Nat} {bytes : Bytes} {start : Nat} {part : ByteArr n}
    (done : (slice_array n bytes start : Except ε (ByteArr n)) = .ok part) : bytes.drop start = part.val ++ bytes.drop (start + n) := by
  rw [slice_array] at done
  split at done
  · cases done
    rw [← List.drop_drop,List.take_append_drop]
  · cases done

end

theorem read_len_ok {bytes part : Bytes} {cursor stop : Nat} (done : read_len bytes cursor = .ok (part,stop)) :
    part.length < 2 ^ 32 ∧ bytes.drop cursor = counted part ++ bytes.drop stop := by
  unfold read_len at done
  split at done
  · cases done
  · obtain ⟨head,first,done⟩ := bind_ok_iff.mp done
    obtain ⟨split,stops⟩ := slice_splits first
    have four : head.length = 4 := by omega
    dsimp only at done
    split at done
    · cases done
    · rename_i stop' summed
      split at done
      · cases done
      · obtain ⟨body,second,done⟩ := bind_ok_iff.mp done
        cases done
        obtain ⟨split',stops'⟩ := slice_splits second
        have is : stop = cursor + 4 + (UInt32.from_le_bytes head).toNat := by
          rw [usize_checked_add] at summed
          split at summed
          · cases summed
            rfl
          · cases summed
        have size : part.length = (UInt32.from_le_bytes head).toNat := by omega
        refine ⟨by rw [size]; exact UInt32.toNat_lt _,?_⟩
        rw [split,split',counted,size,UInt32.ofNat_toNat,u32_to_from_le four,List.append_assoc]

/-- One row of a table of tags. -/
theorem tag_ok {ε α : Type} {byte tag : UInt8} {a b : α} {rest : Except ε α}
    (done : (if byte = tag then .ok a else rest) = .ok b) : (byte = tag ∧ b = a) ∨ rest = .ok b := by
  by_cases same : byte = tag
  · rw [if_pos same] at done
    cases done
    exact .inl ⟨same,rfl⟩
  · rw [if_neg same] at done
    exact .inr done

theorem job_state_read {byte : UInt8} {state : DurableJobState} (done : DurableJobState.try_from byte = .ok state) :
    byte = state.as_u8 := by
  rcases tag_ok done with ⟨rfl,rfl⟩ | done
  · rfl
  · rcases tag_ok done with ⟨rfl,rfl⟩ | done
    · rfl
    · rcases tag_ok done with ⟨rfl,rfl⟩ | done
      · rfl
      · rcases tag_ok done with ⟨rfl,rfl⟩ | done
        · rfl
        · rcases tag_ok done with ⟨rfl,rfl⟩ | done
          · rfl
          · cases done

theorem decode_key_ok {bytes : Bytes} {cursor stop : Nat} {key : Option Bytes}
    (done : decode_idempotency_key bytes cursor = .ok (key,stop)) :
    (∀ k, key = some k → k.length < 2 ^ 32) ∧ bytes.drop cursor = spelledKey key ++ bytes.drop stop := by
  obtain ⟨tag,tagged,done⟩ := bind_ok_iff.mp done
  have behind := index_splits tagged
  by_cases absent : tag = 0
  · rw [if_pos absent] at done
    cases done
    rw [behind,absent]
    exact ⟨by simp,rfl⟩
  · rw [if_neg absent] at done
    by_cases present : tag = 1
    · rw [if_pos present] at done
      obtain ⟨⟨value,after⟩,read,done⟩ := bind_ok_iff.mp done
      cases done
      obtain ⟨short,split⟩ := read_len_ok read
      rw [behind,split,present]
      exact ⟨by simpa using short,by simp [spelledKey]⟩
    · rw [if_neg present] at done
      cases done

/-- A job is read from nothing but its spelling. -/
theorem decode_job_ok {bytes : Bytes} {job : DurableJob} (done : decode_job bytes = .ok job) : job.Stored ∧ bytes = job.spelling := by
  unfold decode_job at done
  split at done
  · cases done
  · obtain ⟨version,at0,done⟩ := bind_ok_iff.mp done
    split at done
    · cases done
    · rename_i versioned
      obtain ⟨tag,at1,done⟩ := bind_ok_iff.mp done
      obtain ⟨state,stated,done⟩ := bind_ok_iff.mp done
      obtain ⟨id,at2,done⟩ := bind_ok_iff.mp done
      obtain ⟨available,at18,done⟩ := bind_ok_iff.mp done
      obtain ⟨deadline,at26,done⟩ := bind_ok_iff.mp done
      obtain ⟨priority,at34,done⟩ := bind_ok_iff.mp done
      obtain ⟨attempts,at38,done⟩ := bind_ok_iff.mp done
      obtain ⟨max_attempts,at42,done⟩ := bind_ok_iff.mp done
      obtain ⟨backoff,at46,done⟩ := bind_ok_iff.mp done
      obtain ⟨lease_until,at54,done⟩ := bind_ok_iff.mp done
      obtain ⟨generation,at62,done⟩ := bind_ok_iff.mp done
      obtain ⟨⟨handler,cursor⟩,at66,done⟩ := bind_ok_iff.mp done
      obtain ⟨⟨payload,cursor'⟩,next,done⟩ := bind_ok_iff.mp done
      dsimp only at next done
      split at done
      · cases done
      · obtain ⟨⟨key,stop⟩,last,done⟩ := bind_ok_iff.mp done
        dsimp only at done
        split at done
        · cases done
        · rename_i whole
          cases done
          obtain ⟨short_handler,after_handler⟩ := read_len_ok at66
          obtain ⟨short_payload,after_payload⟩ := read_len_ok next
          obtain ⟨short_key,after_key⟩ := decode_key_ok last
          obtain ⟨available_split,available_size⟩ := slice_splits at18
          obtain ⟨deadline_split,deadline_size⟩ := slice_splits at26
          obtain ⟨priority_split,priority_size⟩ := slice_splits at34
          obtain ⟨attempts_split,attempts_size⟩ := slice_splits at38
          obtain ⟨max_split,max_size⟩ := slice_splits at42
          obtain ⟨backoff_split,backoff_size⟩ := slice_splits at46
          obtain ⟨until_split,until_size⟩ := slice_splits at54
          obtain ⟨generation_split,generation_size⟩ := slice_splits at62
          have finished : bytes.drop stop = [] := by
            rw [not_not.mp whole,List.drop_length]
          have read_deadline : (Option.getD (if Int64.from_le_bytes deadline ≠ Int64.minValue then some (Int64.from_le_bytes deadline)
              else none) Int64.minValue).to_le_bytes = deadline := by
            by_cases lost : Int64.from_le_bytes deadline = Int64.minValue
            · rw [if_neg (not_not.mpr lost),Option.getD_none,← lost,i64_to_from_le (by omega)]
            · rw [if_pos lost,Option.getD_some,i64_to_from_le (by omega)]
          refine ⟨⟨⟨short_handler,short_payload,short_key⟩,?_⟩,?_⟩
          · dsimp only
            split
            · simpa using ‹_›
            · simp
          · calc bytes = bytes.drop 0 := rfl
              _ = _ := by
                rw [index_splits at0,index_splits at1,slice_array_splits at2,available_split,deadline_split,priority_split,
                  attempts_split,max_split,backoff_split,until_split,generation_split]
                rw [show 66 = JOB_FIXED from rfl,after_handler,after_payload,after_key,finished,List.append_nil]
                unfold DurableJob.spelling
                dsimp only
                rw [read_deadline,i64_to_from_le (by omega),i32_to_from_le (by omega),u32_to_from_le (by omega),
                  u32_to_from_le (by omega),u64_to_from_le (by omega),i64_to_from_le (by omega),u32_to_from_le (by omega),
                  not_not.mp versioned,job_state_read stated]
                rfl

end VoodooStore
