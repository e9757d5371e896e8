import StackFlow.Fault

/-!
# Computations that may end with a fault

How a computation that has succeeded is taken apart: a sequence into its two steps, a map into its
single results, a fold into its steps.
-/

namespace StackFlow

variable {ε α β : Type}

theorem bind_eq_ok_iff {first : Except ε α} {next : α → Except ε β} {result : β} :
    (first >>= next) = .ok result ↔ ∃ value, first = .ok value ∧ next value = .ok result := by
  cases first with
  | error fault => simp [bind, Except.bind]
  | ok value => simp [bind, Except.bind]

theorem ok_bind (value : α) (next : α → Except ε β) : (Except.ok value >>= next) = next value :=
  rfl

theorem exists_bind_eq_ok {first : Except ε α} {next : α → Except ε β} {value : α}
    (started : first = .ok value) (continues : ∃ result, next value = .ok result) :
    ∃ result, (first >>= next) = .ok result := by
  obtain ⟨result, finished⟩ := continues
  exact ⟨result, bind_eq_ok_iff.2 ⟨value, started, finished⟩⟩

theorem pure_eq_ok_iff {value result : α} :
    (pure value : Except ε α) = .ok result ↔ value = result := by
  simp [pure, Except.pure]

theorem mapM_eq_ok_iff {apply : α → Except ε β} {items : List α} {results : List β} :
    items.mapM apply = .ok results ↔ items.map apply = results.map .ok := by
  induction items generalizing results with
  | nil => cases results <;> simp [pure, Except.pure]
  | cons item items ih =>
      rw [List.mapM_cons, bind_eq_ok_iff]
      constructor
      · rintro ⟨first, hfirst, rest⟩
        obtain ⟨others, hothers, done⟩ := bind_eq_ok_iff.1 rest
        obtain rfl := pure_eq_ok_iff.1 done
        rw [List.map_cons, List.map_cons, hfirst, ih.1 hothers]
      · intro same
        cases results with
        | nil => cases same
        | cons result results =>
            obtain ⟨hfirst, hothers⟩ := List.cons_eq_cons.1 same
            exact ⟨result, hfirst, bind_eq_ok_iff.2 ⟨results, ih.2 hothers, rfl⟩⟩

theorem mem_of_mapM_eq_ok {apply : α → Except ε β} {items : List α} {results : List β}
    (mapped : items.mapM apply = .ok results) {result : β} :
    result ∈ results ↔ ∃ item ∈ items, apply item = .ok result := by
  have same := mapM_eq_ok_iff.1 mapped
  constructor
  · intro member
    exact List.mem_map.1 (same ▸ List.mem_map_of_mem member)
  · rintro ⟨item, member, applied⟩
    have found : Except.ok result ∈ results.map .ok :=
      same ▸ List.mem_map.2 ⟨item, member, applied⟩
    obtain ⟨other, hother, heq⟩ := List.mem_map.1 found
    exact Except.ok.inj heq ▸ hother

theorem getElem?_of_mapM_eq_ok {apply : α → Except ε β} {items : List α} {results : List β}
    (mapped : items.mapM apply = .ok results) (index : Nat) :
    items[index]?.map apply = results[index]?.map .ok := by
  rw [← List.getElem?_map, ← List.getElem?_map, mapM_eq_ok_iff.1 mapped]

theorem map_eq_map_of_mapM_eq_ok {γ : Type} {apply : α → Except ε β} {key : α → γ}
    {resultKey : β → γ}
    (keeps : ∀ item result, apply item = .ok result → key item = resultKey result)
    {items : List α} {results : List β} (mapped : items.mapM apply = .ok results) :
    items.map key = results.map resultKey := by
  refine List.ext_getElem? fun index => ?_
  have same := getElem?_of_mapM_eq_ok mapped index
  rw [List.getElem?_map, List.getElem?_map]
  cases found : items[index]? with
  | none =>
      rw [found, Option.map_none] at same
      rw [Option.map_eq_none_iff.1 same.symm, Option.map_none, Option.map_none]
  | some item =>
      rw [found, Option.map_some] at same
      obtain ⟨result, hresult, applied⟩ := Option.map_eq_some_iff.1 same.symm
      rw [hresult, Option.map_some, Option.map_some, keeps item result applied.symm]

theorem eq_map_of_mapM_eq_ok {apply : α → Except ε β} {restore : β → α}
    (inverse : ∀ item result, apply item = .ok result → item = restore result)
    {items : List α} {results : List β} (mapped : items.mapM apply = .ok results) :
    items = results.map restore := by
  have same : items.map id = results.map restore := map_eq_map_of_mapM_eq_ok inverse mapped
  rwa [List.map_id] at same

theorem mapM_eq_ok_of_forall {apply : α → Except ε β} {value : α → β} {items : List α}
    (each : ∀ item ∈ items, apply item = .ok (value item)) :
    items.mapM apply = .ok (items.map value) := by
  rw [mapM_eq_ok_iff, List.map_map]
  exact List.map_congr_left each

theorem exists_mapM_eq_ok_iff {apply : α → Except ε β} {items : List α} :
    (∃ results, items.mapM apply = .ok results) ↔
      ∀ item ∈ items, ∃ result, apply item = .ok result := by
  constructor
  · rintro ⟨results, mapped⟩ item member
    have applied : apply item ∈ results.map .ok :=
      mapM_eq_ok_iff.1 mapped ▸ List.mem_map_of_mem member
    obtain ⟨result, -, heq⟩ := List.mem_map.1 applied
    exact ⟨result, heq.symm⟩
  · intro each
    induction items with
    | nil => exact ⟨[], rfl⟩
    | cons item items ih =>
        obtain ⟨result, applied⟩ := each item List.mem_cons_self
        obtain ⟨results, mapped⟩ :=
          ih fun other member => each other (List.mem_cons_of_mem _ member)
        rw [List.mapM_cons]
        exact exists_bind_eq_ok applied (exists_bind_eq_ok mapped ⟨_, rfl⟩)

/-- A map that fails gives the error of the first item that fails. -/
theorem exists_first_of_mapM_eq_error {apply : α → Except ε β} {items : List α} {error : ε}
    (failed : items.mapM apply = .error error) :
    ∃ before item after, items = before ++ item :: after ∧
      (∀ other ∈ before, ∃ result, apply other = .ok result) ∧ apply item = .error error := by
  induction items with
  | nil => cases failed
  | cons item items ih =>
      rw [List.mapM_cons] at failed
      cases applied : apply item with
      | error fault =>
          rw [applied] at failed
          obtain rfl : fault = error := Except.error.inj failed
          exact ⟨[], item, items, rfl, by simp, applied⟩
      | ok value =>
          rw [applied, ok_bind] at failed
          cases mapped : items.mapM apply with
          | ok results => simp [mapped, ok_bind, pure, Except.pure] at failed
          | error fault =>
              rw [mapped] at failed
              obtain rfl : fault = error := Except.error.inj failed
              obtain ⟨before, other, after, split, succeed, fails⟩ := ih mapped
              refine ⟨item :: before, other, after, by rw [split, List.cons_append], ?_, fails⟩
              exact List.forall_mem_cons.2 ⟨⟨value, applied⟩, succeed⟩

theorem mapM_eq_error_iff {apply : α → Except ε β} {items : List α} {error : ε} :
    items.mapM apply = .error error ↔
      ∃ before item after, items = before ++ item :: after ∧
        (∀ other ∈ before, ∃ result, apply other = .ok result) ∧ apply item = .error error := by
  refine ⟨exists_first_of_mapM_eq_error, ?_⟩
  rintro ⟨before, item, after, rfl, succeed, fails⟩
  obtain ⟨results, mapped⟩ := exists_mapM_eq_ok_iff.2 succeed
  rw [List.mapM_append, mapped, ok_bind, List.mapM_cons, fails]
  rfl

theorem foldlM_induct {step : β → α → Except ε β} {motive : List α → β → Prop}
    {items : List α} {start result : β}
    (folded : items.foldlM step start = .ok result) (first : motive [] start)
    (next : ∀ done item rest value following, items = done ++ item :: rest → motive done value →
      step value item = .ok following → motive (done ++ [item]) following) :
    motive items result := by
  suffices general : ∀ rest done value, items = done ++ rest → motive done value →
      rest.foldlM step value = .ok result → motive items result from
    general items [] start rfl first folded
  intro rest
  induction rest with
  | nil =>
      intro done value split holds finished
      rw [List.foldlM_nil, pure_eq_ok_iff] at finished
      rw [split, List.append_nil, ← finished]
      exact holds
  | cons item rest ih =>
      intro done value split holds finished
      rw [List.foldlM_cons, bind_eq_ok_iff] at finished
      obtain ⟨following, hstep, finished⟩ := finished
      refine ih (done ++ [item]) following (by simp [split]) ?_ finished
      exact next done item rest value following split holds hstep

theorem exists_foldlM_eq_ok {step : β → α → Except ε β} (invariant : β → Prop) {items : List α}
    {start : β} (holds : invariant start)
    (next : ∀ item ∈ items, ∀ value, invariant value →
      ∃ following, step value item = .ok following ∧ invariant following) :
    ∃ result, items.foldlM step start = .ok result ∧ invariant result := by
  induction items generalizing start with
  | nil => exact ⟨start, rfl, holds⟩
  | cons item items ih =>
      obtain ⟨following, stepped, kept⟩ := next item List.mem_cons_self start holds
      obtain ⟨result, folded, final⟩ := ih kept fun other member =>
        next other (List.mem_cons_of_mem _ member)
      refine ⟨result, ?_, final⟩
      rw [List.foldlM_cons, bind_eq_ok_iff]
      exact ⟨following, stepped, folded⟩

theorem foldlM_eq_ok_of_forall {step : β → α → Except ε β} {next : β → α → β} {items : List α}
    {start : β} (each : ∀ item ∈ items, ∀ value, step value item = .ok (next value item)) :
    items.foldlM step start = .ok (items.foldl next start) := by
  induction items generalizing start with
  | nil => rfl
  | cons item items ih =>
      rw [List.foldlM_cons, List.foldl_cons, each item List.mem_cons_self, ok_bind]
      exact ih fun other member => each other (List.mem_cons_of_mem _ member)

theorem foldlM_congr {step other : β → α → Except ε β} (invariant : β → Prop) {items : List α}
    {start : β} (holds : invariant start)
    (same : ∀ item ∈ items, ∀ value, invariant value → other value item = step value item)
    (kept : ∀ item ∈ items, ∀ value following, invariant value →
      step value item = .ok following → invariant following) :
    items.foldlM other start = items.foldlM step start := by
  induction items generalizing start with
  | nil => rfl
  | cons item items ih =>
      rw [List.foldlM_cons, List.foldlM_cons, same item List.mem_cons_self start holds]
      cases stepped : step start item with
      | error fault => rfl
      | ok following =>
          refine ih (kept item List.mem_cons_self start following holds stepped) ?_ ?_
          · exact fun later member => same later (List.mem_cons_of_mem _ member)
          · exact fun later member => kept later (List.mem_cons_of_mem _ member)

def succeedsWith (test : α → Bool) : Except ε α → Bool
  | .ok value => test value
  | .error _ => false

theorem succeedsWith_iff {test : α → Bool} {computation : Except ε α} :
    succeedsWith test computation = true ↔
      ∃ value, computation = .ok value ∧ test value = true := by
  cases computation <;> simp [succeedsWith]

namespace Fault

theorem require_eq_ok_iff {value : Option α} {result : α} :
    require value = .ok result ↔ value = some result := by
  cases value <;> simp [require]

theorem fetch_eq_ok_iff {items : List α} {index : Nat} {item : α} :
    fetch items index = .ok item ↔ items[index]? = some item :=
  require_eq_ok_iff

theorem fetch_eq_ok {items : List α} {index : Nat} (bound : index < items.length) :
    fetch items index = .ok items[index] :=
  fetch_eq_ok_iff.2 (List.getElem?_eq_getElem bound)

end Fault

end StackFlow
