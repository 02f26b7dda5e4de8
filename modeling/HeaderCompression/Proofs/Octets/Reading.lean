import HeaderCompression.Octets.Reading

/-!
# Readers that look no further than they read

A reader is prefixwise if its verdict is decided by the octets that it takes. Such a reader gives
the same verdict however many octets follow, so it does not matter when the octets arrive, and
what is left after it can be read on its own. Sequences of prefixwise readers are prefixwise.
-/

namespace HeaderCompression.Octets

namespace Reading

variable {α β : Type}

/-- Go on from where the element ends. -/
def andThen (reading : Reading α) (next : α → Octets → Reading β) : Reading β :=
  match reading with
  | complete value rest => next value rest
  | incomplete => incomplete
  | failed error rest => failed error rest

/-- The outcome of an element that takes no octet. -/
def ofExcept (result : Except DecodingError α) (rest : Octets) : Reading α :=
  match result with
  | .ok value => complete value rest
  | .error error => failed error rest

@[simp]
theorem andThen_complete (value : α) (rest : Octets) (next : α → Octets → Reading β) :
    (complete value rest).andThen next = next value rest := rfl

@[simp]
theorem andThen_incomplete (next : α → Octets → Reading β) :
    (incomplete : Reading α).andThen next = incomplete := rfl

@[simp]
theorem andThen_failed (error : DecodingError) (rest : Octets) (next : α → Octets → Reading β) :
    (failed error rest : Reading α).andThen next = failed error rest := rfl

@[simp]
theorem ofExcept_ok (value : α) (rest : Octets) :
    ofExcept (.ok value) rest = complete value rest := rfl

@[simp]
theorem ofExcept_error (error : DecodingError) (rest : Octets) :
    (ofExcept (.error error) rest : Reading α) = failed error rest := rfl

theorem ofExcept_ne_incomplete (result : Except DecodingError α) (rest : Octets) :
    ofExcept result rest ≠ incomplete := by
  cases result <;> simp

theorem ofExcept_inj (first second : Except DecodingError α) {rest others : Octets}
    (hequal : ofExcept first rest = ofExcept second others) : first = second ∧ rest = others := by
  cases first <;> cases second <;> simp_all

theorem map_eq_andThen (convert : α → β) (reading : Reading α) :
    reading.map convert = reading.andThen fun value ↦ complete (convert value) := by
  cases reading <;> rfl

theorem andThen_eq_complete_iff {reading : Reading α} {next : α → Octets → Reading β} {value : β}
    {rest : Octets} :
    reading.andThen next = complete value rest ↔
      ∃ element middle, reading = complete element middle ∧
        next element middle = complete value rest := by
  constructor
  · intro hboth
    cases reading with
    | complete element middle => exact ⟨element, middle, rfl, hboth⟩
    | incomplete => cases hboth
    | failed error middle => cases hboth
  · rintro ⟨element, middle, rfl, hnext⟩
    exact hnext

theorem andThen_eq_incomplete_iff {reading : Reading α} {next : α → Octets → Reading β} :
    reading.andThen next = incomplete ↔
      reading = incomplete ∨
        ∃ element middle, reading = complete element middle ∧ next element middle = incomplete := by
  constructor
  · intro hboth
    cases reading with
    | complete element middle => exact .inr ⟨element, middle, rfl, hboth⟩
    | incomplete => exact .inl rfl
    | failed error middle => cases hboth
  · rintro (rfl | ⟨element, middle, rfl, hnext⟩)
    · rfl
    · exact hnext

theorem map_eq_complete_iff {convert : α → β} {reading : Reading α} {value : β} {rest : Octets} :
    reading.map convert = complete value rest ↔
      ∃ element, reading = complete element rest ∧ convert element = value := by
  cases reading with
  | complete element middle =>
    rw [map_complete, complete.injEq]
    constructor
    · rintro ⟨rfl, rfl⟩
      exact ⟨element, rfl, rfl⟩
    · rintro ⟨other, hother, rfl⟩
      obtain ⟨rfl, rfl⟩ := complete.inj hother
      exact ⟨rfl, rfl⟩
  | incomplete => simp
  | failed error middle => simp

theorem map_eq_incomplete_iff {convert : α → β} {reading : Reading α} :
    reading.map convert = incomplete ↔ reading = incomplete := by
  cases reading <;> simp

theorem ofExcept_eq_complete_iff {result : Except DecodingError α} {value : α}
    {rest others : Octets} :
    ofExcept result rest = complete value others ↔ result = .ok value ∧ rest = others := by
  cases result <;> simp

theorem andThen_andThen {γ : Type} (reading : Reading α) (next : α → Octets → Reading β)
    (last : β → Octets → Reading γ) :
    (reading.andThen next).andThen last =
      reading.andThen fun value rest ↦ (next value rest).andThen last := by
  cases reading <;> rfl

end Reading

/-- The verdict of the reader, a value or an error, is decided by the octets that it takes. -/
structure Prefixwise {α : Type} (reader : Octets → Reading α) : Prop where
  decided {octets rest : Octets} (verdict : Except DecodingError α)
    (hread : reader octets = .ofExcept verdict rest) :
    ∃ taken, octets = taken ++ rest ∧ ∀ more, reader (taken ++ more) = .ofExcept verdict more

namespace Prefixwise

variable {α β : Type} {reader : Octets → Reading α}

/-! ## More octets -/

theorem append (hreader : Prefixwise reader) {octets rest : Octets}
    (verdict : Except DecodingError α) (hread : reader octets = .ofExcept verdict rest)
    (more : Octets) : reader (octets ++ more) = .ofExcept verdict (rest ++ more) := by
  obtain ⟨taken, rfl, htaken⟩ := hreader.decided verdict hread
  rw [List.append_assoc]
  exact htaken (rest ++ more)

theorem suffix (hreader : Prefixwise reader) {octets rest : Octets}
    (verdict : Except DecodingError α) (hread : reader octets = .ofExcept verdict rest) :
    rest <:+ octets := by
  obtain ⟨taken, rfl, -⟩ := hreader.decided verdict hread
  exact List.suffix_append taken rest

/-- A reader that cannot decide without octets takes at least one. -/
theorem length_lt (hreader : Prefixwise reader) (hnil : reader [] = .incomplete)
    {octets rest : Octets} (verdict : Except DecodingError α)
    (hread : reader octets = .ofExcept verdict rest) : rest.length < octets.length := by
  obtain ⟨taken, rfl, htaken⟩ := hreader.decided verdict hread
  cases taken with
  | nil =>
    have hdecided := htaken []
    rw [List.append_nil, hnil] at hdecided
    cases verdict <;> simp at hdecided
  | cons octet taken =>
    rw [List.length_append, List.length_cons]
    omega

/-! ## Composition -/

theorem ofExcept (result : Except DecodingError α) : Prefixwise (Reading.ofExcept result) where
  decided verdict hread := by
    obtain ⟨rfl, rfl⟩ := Reading.ofExcept_inj result verdict hread
    exact ⟨[], rfl, fun more ↦ rfl⟩

theorem first : Prefixwise first where
  decided {octets rest} verdict hread := by
    cases octets with
    | nil => exact absurd hread.symm (Reading.ofExcept_ne_incomplete verdict rest)
    | cons octet octets =>
      obtain ⟨rfl, rfl⟩ := Reading.ofExcept_inj (.ok octet) verdict hread
      exact ⟨[octet], rfl, fun more ↦ rfl⟩

theorem andThen {next : α → Octets → Reading β} (hreader : Prefixwise reader)
    (hnext : ∀ value, Prefixwise (next value)) :
    Prefixwise fun octets ↦ (reader octets).andThen next where
  decided {octets rest} verdict hread := by
    cases hfirst : reader octets with
    | incomplete =>
      rw [hfirst] at hread
      exact absurd hread.symm (Reading.ofExcept_ne_incomplete verdict rest)
    | failed error middle =>
      rw [hfirst] at hread
      obtain ⟨rfl, rfl⟩ := Reading.ofExcept_inj (.error error) verdict hread
      obtain ⟨taken, rfl, htaken⟩ := hreader.decided (.error error) hfirst
      exact ⟨taken, rfl, fun more ↦ by rw [htaken more]; rfl⟩
    | complete value middle =>
      rw [hfirst] at hread
      obtain ⟨taken, rfl, htaken⟩ := hreader.decided (.ok value) hfirst
      obtain ⟨others, rfl, hothers⟩ := (hnext value).decided verdict hread
      refine ⟨taken ++ others, (List.append_assoc taken others rest).symm, fun more ↦ ?_⟩
      rw [List.append_assoc, htaken (others ++ more)]
      exact hothers more

theorem map (hreader : Prefixwise reader) (convert : α → β) :
    Prefixwise fun octets ↦ (reader octets).map convert := by
  simp only [Reading.map_eq_andThen]
  exact hreader.andThen fun value ↦ ofExcept (.ok (convert value))

/-- A reader may be chosen by the first octet, if it takes that octet itself. -/
theorem ofFirst {choice : UInt8 → Octets → Reading α} (hchoice : ∀ octet, Prefixwise (choice octet))
    (hnil : ∀ octet, choice octet [] = .incomplete)
    (hreadNil : reader [] = .incomplete)
    (hreadCons : ∀ octet rest, reader (octet :: rest) = choice octet (octet :: rest)) :
    Prefixwise reader where
  decided {octets rest} verdict hread := by
    cases octets with
    | nil => exact absurd (hread.symm.trans hreadNil) (Reading.ofExcept_ne_incomplete verdict rest)
    | cons octet octets =>
      rw [hreadCons] at hread
      obtain ⟨taken, hoctets, htaken⟩ := (hchoice octet).decided verdict hread
      cases taken with
      | nil =>
        have hdecided := (htaken []).symm.trans (hnil octet)
        exact absurd hdecided (Reading.ofExcept_ne_incomplete verdict [])
      | cons head taken =>
        obtain ⟨rfl, -⟩ := List.cons.inj hoctets
        exact ⟨octet :: taken, hoctets, fun more ↦ (hreadCons octet _).trans (htaken more)⟩

end Prefixwise

end HeaderCompression.Octets
