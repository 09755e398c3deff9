import VoodooStore.CronTimes

/-!
# The fields of a cron expression

What a field may look like is given by a grammar: its parts are `*`, a number or
a range, and a step may follow. A field is accepted exactly if its parts are in
the grammar, and allows exactly the values that they denote.
-/
namespace VoodooStore
open Effects
set_option linter.unusedSimpArgs false

/-! ## The grammar -/

/-- The text of a number that a value may take. -/
def ValueText (min max : UInt8) (text : Str) (value : UInt8) : Prop := parse_u8 text = some value ∧ min ≤ value ∧ value ≤ max

/-- A part without its step, and its bounds. -/
inductive BaseText (min max : UInt8) : Str → UInt8 → UInt8 → Prop
  | any : BaseText min max ['*'] min max
  | one {text : Str} {value : UInt8} : ValueText min max text value → BaseText min max text value value
  | range {first last : Str} {start stop : UInt8} : ValueText min max first start → ValueText min max last stop → start ≤ stop →
      BaseText min max (first ++ '-' :: last) start stop

/-- A part, its bounds and its step. -/
inductive PartText (min max : UInt8) : Str → UInt8 → UInt8 → UInt8 → Prop
  | plain {base : Str} {start stop : UInt8} : BaseText min max base start stop → PartText min max base start stop 1
  | stepped {base number : Str} {start stop step : UInt8} : BaseText min max base start stop → parse_u8 number = some step → 1 ≤ step →
      PartText min max (base ++ '/' :: number) start stop step

/-! ## Where a text is split -/

theorem split_once_none {c : Char} {text : Str} : split_once c text = none ↔ c ∉ text := by
  induction text with
  | nil => simp [split_once]
  | cons d text ih =>
    rw [split_once]
    by_cases here : d = c
    · simp [here]
    · rw [if_neg here,Option.map_eq_none_iff,ih,List.mem_cons,not_or]
      simp [Ne.symm here]

theorem split_once_some {c : Char} {text front back : Str} :
    split_once c text = some (front,back) ↔ text = front ++ c :: back ∧ c ∉ front := by
  induction text generalizing front with
  | nil => simp [split_once]
  | cons d text ih =>
    rw [split_once]
    by_cases here : d = c
    · subst here
      rw [if_pos rfl]
      constructor
      · intro same
        cases same
        exact ⟨rfl,by simp⟩
      · rintro ⟨same,outside⟩
        cases front with
        | nil =>
          cases same
          rfl
        | cons e front =>
          cases same
          exact absurd (List.mem_cons_self ..) outside
    · rw [if_neg here,Option.map_eq_some_iff]
      constructor
      · rintro ⟨⟨early,late⟩,split,same⟩
        cases same
        obtain ⟨rfl,outside⟩ := ih.mp split
        exact ⟨rfl,by simp [outside,Ne.symm here]⟩
      · rintro ⟨same,outside⟩
        cases front with
        | nil =>
          cases same
          exact absurd rfl here
        | cons e front =>
          cases same
          rw [List.mem_cons,not_or] at outside
          exact ⟨(front,back),ih.mpr ⟨rfl,outside.2⟩,rfl⟩

/-- A number has digits, and maybe a sign. -/
theorem parse_u8_letters {text : Str} {value : UInt8} (parsed : parse_u8 text = some value) : ∀ c ∈ text, c = '+' ∨ c.isDigit = true := by
  obtain ⟨n,read,-⟩ := Option.bind_eq_some_iff.mp parsed
  have digits : ∀ {text : Str}, parse_digits text = some n → ∀ c ∈ text, c.isDigit = true := by
    intro text read
    unfold parse_digits at read
    split at read
    · cases read
    · split at read
      · rename_i all
        exact List.all_eq_true.mp all
      · cases read
  split at read
  · intro c member
    rcases List.mem_cons.mp member with rfl | member
    · exact .inl rfl
    · exact .inr (digits read c member)
  · exact fun c member => .inr (digits read c member)

theorem ValueText.outside {min max value : UInt8} {text : Str} (number : ValueText min max text value) {c : Char} (sign : c ≠ '+')
    (letter : c.isDigit = false) : c ∉ text := by
  intro member
  rcases parse_u8_letters number.1 c member with same | digit
  · exact sign same
  · rw [letter] at digit
    cases digit

theorem BaseText.outside {min max start stop : UInt8} {base : Str} (bounds : BaseText min max base start stop) : '/' ∉ base := by
  cases bounds with
  | any => simp
  | one number => exact number.outside (by decide) (by decide)
  | range first last ordered =>
    rw [List.mem_append,List.mem_cons]
    rintro (inside | same | inside)
    · exact first.outside (by decide) (by decide) inside
    · exact absurd same (by decide)
    · exact last.outside (by decide) (by decide) inside

/-! ## The parts -/

theorem parse_value_iff {text original : Str} {min max value : UInt8} :
    parse_value text min max original = .ok value ↔ ValueText min max text value := by
  unfold parse_value ValueText
  rw [bind_ok_iff]
  constructor
  · rintro ⟨parsed,read,checked⟩
    obtain ⟨inside,same⟩ := refuse_ok_iff.mp checked
    cases same
    rw [not_or] at inside
    exact ⟨ok_or_ok.mp read,UInt8.not_lt.mp inside.1,UInt8.not_lt.mp inside.2⟩
  · rintro ⟨read,low,high⟩
    refine ⟨value,ok_or_ok.mpr read,refuse_ok_iff.mpr ⟨?_,rfl⟩⟩
    rintro (below | above)
    · exact UInt8.not_lt.mpr low below
    · exact UInt8.not_lt.mpr high above

theorem parse_range_iff {base input : Str} {min max start stop : UInt8} (ordered : min ≤ max) :
    parse_range base min max input = .ok (start,stop) ∧ ¬ start > stop ↔ BaseText min max base start stop := by
  unfold parse_range
  constructor
  · rintro ⟨read,forward⟩
    by_cases any : base = ['*']
    · rw [if_pos any] at read
      cases read
      subst any
      exact .any
    · rw [if_neg any] at read
      cases split : split_once '-' base with
      | none =>
        rw [split] at read
        obtain ⟨value,parsed,read⟩ := bind_ok_iff.mp read
        cases read
        exact .one (parse_value_iff.mp parsed)
      | some parts =>
        rw [split] at read
        obtain ⟨rfl,-⟩ := split_once_some.mp split
        obtain ⟨first,parsed_first,read⟩ := bind_ok_iff.mp read
        obtain ⟨last,parsed_last,read⟩ := bind_ok_iff.mp read
        cases read
        exact .range (parse_value_iff.mp parsed_first) (parse_value_iff.mp parsed_last) (UInt8.not_lt.mp forward)
  · intro bounds
    cases bounds with
    | any => exact ⟨rfl,UInt8.not_lt.mpr ordered⟩
    | one number =>
      have plain : base ≠ ['*'] := by
        rintro rfl
        exact number.outside (show '*' ≠ '+' by decide) (by decide) (List.mem_singleton_self '*')
      rw [if_neg plain,split_once_none.mpr (number.outside (by decide) (by decide))]
      refine ⟨?_,UInt8.not_lt.mpr (UInt8.le_refl _)⟩
      dsimp only
      rw [parse_value_iff.mpr number,ok_bind]
      rfl
    | @range first last _ _ from_here to_there forward =>
      have plain : first ++ '-' :: last ≠ ['*'] := by
        intro same
        have inside : '-' ∈ first ++ '-' :: last := by simp
        rw [same] at inside
        exact absurd inside (by decide)
      rw [if_neg plain,split_once_some.mpr ⟨rfl,from_here.outside (by decide) (by decide)⟩]
      refine ⟨?_,UInt8.not_lt.mpr forward⟩
      dsimp only
      rw [parse_value_iff.mpr from_here,ok_bind,parse_value_iff.mpr to_there,ok_bind]
      rfl

/-- A part that the code takes apart is one of the grammar. -/
theorem part_iff {part input : Str} {min max start stop step : UInt8} (ordered : min ≤ max) :
    (∃ base, parse_step part input = .ok (base,step) ∧ parse_range base min max input = .ok (start,stop) ∧ ¬ start > stop) ↔
      PartText min max part start stop step := by
  unfold parse_step
  constructor
  · rintro ⟨base,stepped,ranged⟩
    have bounds := (parse_range_iff ordered).mp ranged
    cases split : split_once '/' part with
    | none =>
      rw [split] at stepped
      cases stepped
      exact .plain bounds
    | some parts =>
      rw [split] at stepped
      obtain ⟨rfl,-⟩ := split_once_some.mp split
      obtain ⟨number,read,checked⟩ := bind_ok_iff.mp stepped
      obtain ⟨positive,same⟩ := refuse_ok_iff.mp checked
      cases same
      refine .stepped bounds (ok_or_ok.mp read) ?_
      rw [UInt8.le_iff_toNat_le]
      have nonzero : step.toNat ≠ 0 := fun zero => positive (UInt8.toNat_inj.mp zero)
      exact Nat.one_le_iff_ne_zero.mpr nonzero
  · intro text
    cases text with
    | plain bounds =>
      rw [split_once_none.mpr bounds.outside]
      exact ⟨part,rfl,(parse_range_iff ordered).mpr bounds⟩
    | @stepped base number _ _ _ bounds read positive =>
      rw [split_once_some.mpr ⟨rfl,bounds.outside⟩]
      refine ⟨base,?_,(parse_range_iff ordered).mpr bounds⟩
      dsimp only
      rw [ok_or_ok.mpr read,ok_bind,if_neg]
      · rfl
      · rintro rfl
        exact absurd positive (by decide)

theorem PartText.bounds {part : Str} {min max start stop step : UInt8} (text : PartText min max part start stop step) :
    BaseText min max part start stop ∨ ∃ base rest, part = base ++ '/' :: rest ∧ BaseText min max base start stop := by
  cases text with
  | plain bounds => exact .inl bounds
  | stepped bounds _ _ => exact .inr ⟨_,_,rfl,bounds⟩

/-! ## The fields -/

/-- The loop over the parts ends well if they are all in the grammar. -/
theorem parse_parts_iff {min max : UInt8} {input : Str} (ordered : min ≤ max) {parts : List Str} {allowed : List Bool} :
    (∃ result, parse_parts min max input allowed parts = .ok result) ↔
      ∀ part ∈ parts, ∃ start stop step, PartText min max part start stop step := by
  induction parts generalizing allowed with
  | nil => simp [parse_parts]
  | cons part parts ih =>
    constructor
    · rintro ⟨result,done⟩
      obtain ⟨⟨base,step⟩,stepped,done⟩ := bind_ok_iff.mp done
      obtain ⟨⟨start,stop⟩,ranged,done⟩ := bind_ok_iff.mp done
      obtain ⟨forward,done⟩ := refuse_ok_iff.mp done
      intro other member
      rcases List.mem_cons.mp member with rfl | later
      · exact ⟨start,stop,step,(part_iff ordered).mp ⟨base,stepped,ranged,forward⟩⟩
      · exact ih.mp ⟨result,done⟩ other later
    · intro all
      obtain ⟨start,stop,step,text⟩ := all part (List.mem_cons_self ..)
      obtain ⟨base,stepped,ranged,forward⟩ := (@part_iff _ input _ _ _ _ _ ordered).mpr text
      obtain ⟨result,done⟩ := @ih (allow_range min stop step 256 allowed start) |>.mpr
        (fun other member => all other (List.mem_cons_of_mem _ member))
      refine ⟨result,?_⟩
      rw [parse_parts,stepped,ok_bind]
      dsimp only
      rw [ranged,ok_bind]
      dsimp only
      rw [if_neg forward]
      exact done

/-- A part names what its bounds and its step reach. -/
theorem part_names_iff {input part : Str} {min max : UInt8} (ordered : min ≤ max) {value : Nat} :
    PartNames input min max part value ↔
      ∃ start stop step, PartText min max part start stop step ∧ Strides start.toNat stop.toNat step.toNat value := by
  constructor
  · rintro ⟨base,step,start,stop,stepped,ranged,strides⟩
    have forward : ¬ start > stop := by
      intro back
      have back_nat : stop.toNat < start.toNat := back
      have above := strides.1
      have below := strides.2.1
      omega
    exact ⟨start,stop,step,(part_iff ordered).mp ⟨base,stepped,ranged,forward⟩,strides⟩
  · rintro ⟨start,stop,step,text,strides⟩
    obtain ⟨base,stepped,ranged,-⟩ := (@part_iff _ input _ _ _ _ _ ordered).mpr text
    exact ⟨base,step,start,stop,stepped,ranged,strides⟩

/-- The values that the parts of a field denote. -/
def Denotes (min max : UInt8) (input : Str) (value : UInt8) : Prop :=
  min ≤ value ∧ value ≤ max ∧ ∃ part ∈ input.splitOn ',', ∃ start stop step, PartText min max part start stop step ∧
    start ≤ value ∧ value ≤ stop ∧ (value.toNat - start.toNat) % step.toNat = 0

theorem bounds_inside {min max start stop : UInt8} (ordered : min ≤ max) {base : Str} (bounds : BaseText min max base start stop) :
    min ≤ start ∧ stop ≤ max ∧ start ≤ stop := by
  cases bounds with
  | any => exact ⟨UInt8.le_refl _,UInt8.le_refl _,ordered⟩
  | one number => exact ⟨number.2.1,number.2.2,UInt8.le_refl _⟩
  | range first last forward => exact ⟨first.2.1,last.2.2,forward⟩

theorem part_inside {part : Str} {min max start stop step : UInt8} (ordered : min ≤ max) (text : PartText min max part start stop step) :
    min ≤ start ∧ stop ≤ max ∧ start ≤ stop := by
  rcases text.bounds with bounds | ⟨base,rest,-,bounds⟩
  · exact bounds_inside ordered bounds
  · exact bounds_inside ordered bounds

theorem names_iff_denotes {input : Str} {min max value : UInt8} (ordered : min ≤ max) :
    Names input min max value.toNat ↔ Denotes min max input value := by
  constructor
  · rintro ⟨part,member,named⟩
    obtain ⟨start,stop,step,text,above,below,distance⟩ := (part_names_iff ordered).mp named
    obtain ⟨first,last,-⟩ := part_inside ordered text
    exact ⟨UInt8.le_trans first (UInt8.le_iff_toNat_le.mpr above),UInt8.le_trans (UInt8.le_iff_toNat_le.mpr below) last,
      part,member,start,stop,step,text,UInt8.le_iff_toNat_le.mpr above,UInt8.le_iff_toNat_le.mpr below,distance⟩
  · rintro ⟨-,-,part,member,start,stop,step,text,above,below,distance⟩
    exact ⟨part,member,(part_names_iff ordered).mpr ⟨start,stop,step,text,
      UInt8.le_iff_toNat_le.mp above,UInt8.le_iff_toNat_le.mp below,distance⟩⟩

/-- A field is accepted exactly if its parts are in the grammar, and then allows
    exactly what they denote. -/
theorem cron_field_denotes {min max : UInt8} (ordered : min ≤ max) (small : max.toNat - min.toNat < 255) (input : Str) :
    ((∃ field, CronField.parse input min max = .ok field) ↔
      ∀ part ∈ input.splitOn ',', ∃ start stop step, PartText min max part start stop step) ∧
    ∀ field, CronField.parse input min max = .ok field → ∀ value, field.matches_value value = true ↔ Denotes min max input value := by
  constructor
  · constructor
    · rintro ⟨field,parsed⟩
      obtain ⟨allowed,done,-⟩ := bind_ok_iff.mp parsed
      exact (parse_parts_iff ordered).mp ⟨allowed,done⟩
    · intro all
      obtain ⟨allowed,done⟩ := (@parse_parts_iff min max input ordered _ (List.replicate (max - min + 1).toNat false)).mpr all
      have size : (max - min + 1).toNat = max.toNat - min.toNat + 1 := by
        rw [UInt8.toNat_add,UInt8.toNat_sub_of_le _ _ ordered]
        exact Nat.mod_eq_of_lt (by simp; omega)
      -- The first part names at least where it starts, so that something is allowed.
      have some_allowed : allowed.any id = true := by
        obtain ⟨part,member⟩ := List.exists_mem_of_ne_nil _ (List.splitOn_ne_nil ',' input)
        obtain ⟨start,stop,step,text⟩ := all part member
        obtain ⟨first,last,forward⟩ := part_inside ordered text
        have first_nat : min.toNat ≤ start.toNat := first
        have there : min.toNat + (start.toNat - min.toNat) = start.toNat := by omega
        have named := (parse_parts_ok (by rw [List.length_replicate,size]) done (start.toNat - min.toNat)).mpr
          (.inr ⟨part,member,(part_names_iff ordered).mpr ⟨start,stop,step,text,by rw [there],by rw [there]; exact forward,by
            rw [there,Nat.sub_self,Nat.zero_mod]⟩⟩)
        rw [List.getD_eq_getElem?_getD] at named
        cases found : allowed[start.toNat - min.toNat]? with
        | none =>
          rw [found] at named
          cases named
        | some entry =>
          rw [found] at named
          exact List.any_eq_true.mpr ⟨entry,List.mem_of_getElem? found,named⟩
      refine ⟨⟨min,max,allowed,decide (input = ['*'])⟩,?_⟩
      rw [CronField.parse,done,ok_bind,some_allowed]
      rfl
  · intro field parsed value
    rw [(cron_field_parse_ok ordered small parsed).2 value]
    exact names_iff_denotes ordered

set_option maxRecDepth 20000 in
/-- Steps beyond the end of a range, and a step close to the largest number. -/
theorem wide_steps_denoted : ∃ field, CronField.parse "*/40,50-59/255".toList 0 59 = .ok field ∧
    (∀ part ∈ "*/40,50-59/255".toList.splitOn ',', ∃ start stop step, PartText 0 59 part start stop step) ∧
    (∀ value, field.matches_value value = true ↔ Denotes 0 59 "*/40,50-59/255".toList value) ∧
    ∀ value ∈ List.range 60, Denotes 0 59 "*/40,50-59/255".toList (.ofNat value) ↔ value ∈ [0,40,50] := by
  have evaluated : (CronField.parse "*/40,50-59/255".toList 0 59).toOption.any (fun field =>
      (List.range 60).all (fun value => field.matches_value (.ofNat value) = decide (value ∈ [0,40,50]))) = true := by decide +kernel
  obtain ⟨field,parsed,matched⟩ := any_ok_iff.mp evaluated
  obtain ⟨accepted,denoted⟩ := @cron_field_denotes 0 59 (by decide) (by decide) "*/40,50-59/255".toList
  refine ⟨field,parsed,accepted.mp ⟨field,parsed⟩,denoted field parsed,?_⟩
  intro value member
  have here := of_decide_eq_true (List.all_eq_true.mp matched value member)
  rw [← denoted field parsed,here,decide_eq_true_eq]

end VoodooStore
