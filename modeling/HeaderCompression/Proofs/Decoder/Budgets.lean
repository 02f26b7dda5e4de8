import HeaderCompression.Proofs.Decoder.Moves

/-!
# What a budget lets through

A move that delivers a header charges the budget with the length of the header. Every other move
leaves the budget as it is or exhausts it. So the budget covers all that has been delivered since
the block began, and a decoder whose budget is exhausted delivers nothing.
-/

namespace HeaderCompression

/-- The lengths of all names and values together. -/
def totalLength : List Header → Nat
  | [] => 0
  | header :: headers => header.field.length + totalLength headers

theorem totalLength_append (headers others : List Header) :
    totalLength (headers ++ others) = totalLength headers + totalLength others := by
  induction headers with
  | nil => rw [List.nil_append, totalLength, Nat.zero_add]
  | cons header headers hheaders =>
    rw [List.cons_append, totalLength, hheaders, totalLength, Nat.add_assoc]

namespace Budget

variable {budget middle charged : Budget} {header? : Option Header} {headers others : List Header}
  {amount length : Nat}

theorem admits_eq_true_iff :
    budget.admits length = true ↔ min (budget.used + length) Size.largest ≤ budget.limit :=
  decide_eq_true_iff

/-- No length is refused by the largest limit. -/
theorem lt_of_admits_eq_false (hrefused : budget.admits length = false) :
    budget.limit < Size.largest ∧ budget.limit < budget.used + length := by
  have hlarge : ¬ min (budget.used + length) Size.largest ≤ budget.limit :=
    of_decide_eq_false hrefused
  omega

/-- What is refused is refused if it turns out longer. -/
theorem admits_eq_false_of_le {longer : Nat} (hlonger : length ≤ longer)
    (hrefused : budget.admits length = false) : budget.admits longer = false := by
  rw [← Bool.not_eq_true, admits_eq_true_iff] at hrefused ⊢
  omega

/-! ## Charges -/

/-- Charge a header that is admitted. -/
def charge (budget : Budget) : Option Header → Budget
  | some header => budget.spend header.field.length
  | none => budget

theorem limit_charge (budget : Budget) (header? : Option Header) :
    (budget.charge header?).limit = budget.limit := by
  cases header? <;> rfl

theorem used_charge_le (hused : budget.used ≤ budget.limit)
    (hadmits : ∀ header ∈ header?, budget.admits header.field.length = true) :
    (budget.charge header?).used ≤ (budget.charge header?).limit := by
  cases header? with
  | none => exact hused
  | some header => exact admits_eq_true_iff.1 (hadmits header rfl)

/-- What a move may do to the budget, and the header that the move delivers. -/
inductive Charged (budget : Budget) : Budget → Option Header → Prop
  | untouched : Charged budget budget none
  | spent (header : Header) (hadmits : budget.admits header.field.length = true) :
    Charged budget (budget.charge (some header)) (some header)
  | exhausted {length : Nat} (hrefused : budget.admits length = false) :
    Charged budget budget.exhaust none

/-- What several moves may do to the budget, and the headers that they deliver. -/
inductive ChargedBy : Budget → Budget → List Header → Prop
  | refl (budget : Budget) : ChargedBy budget budget []
  | head {budget middle charged : Budget} {header? : Option Header} {headers : List Header}
    (hfirst : budget.Charged middle header?) (hrest : ChargedBy middle charged headers) :
    ChargedBy budget charged (header?.toList ++ headers)

theorem ChargedBy.trans (hfirst : budget.ChargedBy middle headers)
    (hsecond : middle.ChargedBy charged others) : budget.ChargedBy charged (headers ++ others) := by
  induction hfirst with
  | refl budget => exact hsecond
  | head hmove hrest hboth =>
    rw [List.append_assoc]
    exact .head hmove (hboth hsecond)

/-! ## Exhausted budgets -/

/-- The budget is limited, and more than the limit is used. -/
structure IsExhausted (budget : Budget) : Prop where
  limited : budget.limit < Size.largest
  exceeded : budget.limit < budget.used

theorem isExhausted_exhaust (hrefused : budget.admits length = false) :
    budget.exhaust.IsExhausted := by
  have hlimited := (lt_of_admits_eq_false hrefused).1
  exact ⟨hlimited, of_decide_eq_true (isExceeded_exhaust hlimited)⟩

theorem IsExhausted.admits_eq_false (hexhausted : budget.IsExhausted) (length : Nat) :
    budget.admits length = false := by
  have hlimited := hexhausted.limited
  have hexceeded := hexhausted.exceeded
  rw [← Bool.not_eq_true, admits_eq_true_iff]
  omega

theorem Charged.of_isExhausted (hcharged : budget.Charged charged header?)
    (hexhausted : budget.IsExhausted) : charged.IsExhausted ∧ header? = none := by
  cases hcharged with
  | untouched => exact ⟨hexhausted, rfl⟩
  | exhausted hrefused => exact ⟨isExhausted_exhaust hrefused, rfl⟩
  | spent header hadmits =>
    rw [hexhausted.admits_eq_false] at hadmits
    cases hadmits

theorem ChargedBy.of_isExhausted (hcharged : budget.ChargedBy charged headers)
    (hexhausted : budget.IsExhausted) : charged.IsExhausted ∧ headers = [] := by
  induction hcharged with
  | refl budget => exact ⟨hexhausted, rfl⟩
  | head hmove hrest hlater =>
    obtain ⟨hmiddle, rfl⟩ := hmove.of_isExhausted hexhausted
    exact hlater hmiddle

/-- A budget may be exhausted before the move that charges it. -/
theorem Charged.trans (hfirst : budget.Charged middle none)
    (hsecond : middle.Charged charged header?) : budget.Charged charged header? := by
  cases hfirst with
  | untouched => exact hsecond
  | exhausted hrefused =>
    cases hsecond with
    | untouched => exact .exhausted hrefused
    | exhausted => exact .exhausted hrefused
    | spent header hadmits =>
      rw [(isExhausted_exhaust hrefused).admits_eq_false] at hadmits
      cases hadmits

/-! ## Amounts that are covered -/

/-- The amount is accounted for and within the limit. Beyond the largest size nothing is counted. -/
structure Covers (budget : Budget) (amount : Nat) : Prop where
  used : min amount Size.largest ≤ budget.used
  limit : min amount Size.largest ≤ budget.limit

theorem Charged.limit_eq (hcharged : budget.Charged charged header?) :
    charged.limit = budget.limit := by
  cases hcharged <;> rfl

theorem Covers.of_charged (hcovers : budget.Covers amount)
    (hcharged : budget.Charged charged header?) :
    charged.Covers (amount + totalLength header?.toList) := by
  have hused := hcovers.used
  have hlimit := hcovers.limit
  cases hcharged with
  | untouched => exact hcovers
  | exhausted hrefused =>
    refine ⟨?_, hlimit⟩
    change min amount Size.largest ≤ min (budget.limit + 1) Size.largest
    omega
  | spent header hadmits =>
    rw [admits_eq_true_iff] at hadmits
    have hmore : min (amount + header.field.length) Size.largest ≤
        min (budget.used + header.field.length) Size.largest := by omega
    exact ⟨hmore, Nat.le_trans hmore hadmits⟩

/-- All that several moves deliver stays within the limit. -/
theorem Covers.of_chargedBy (hcovers : budget.Covers amount)
    (hcharged : budget.ChargedBy charged headers) :
    charged.Covers (amount + totalLength headers) ∧ charged.limit = budget.limit := by
  induction hcharged generalizing amount with
  | refl budget => exact ⟨hcovers, rfl⟩
  | head hmove hrest hlater =>
    have hboth := hlater (hcovers.of_charged hmove)
    rw [totalLength_append, ← Nat.add_assoc]
    exact ⟨hboth.1, hboth.2.trans hmove.limit_eq⟩

end Budget

namespace Decoder

variable {decoder next : Decoder} {completed : Decoder × Option Header}

/-! ## Moves -/

theorem deliver_of_refused {header : Header}
    (hrefused : decoder.budget.admits header.field.length = false) :
    decoder.deliver header =
      ({ decoder with budget := decoder.budget.exhaust, stage := .boundary }, none) := by
  unfold deliver
  rw [hrefused, if_neg Bool.false_ne_true]

theorem deliver_charged (decoder : Decoder) (header : Header) :
    decoder.budget.Charged (decoder.deliver header).1.budget (decoder.deliver header).2 := by
  unfold deliver
  cases hadmits : decoder.budget.admits header.field.length with
  | true => exact .spent header hadmits
  | false => exact .exhausted hadmits

theorem deliverLiteral_charged (decoder : Decoder) (indexing : Wire.Indexing) (field : Field) :
    decoder.budget.Charged (decoder.deliverLiteral indexing field).1.budget
      (decoder.deliverLiteral indexing field).2 := by
  have hdelivered := decoder.deliver_charged { field, sensitive := indexing = .never }
  unfold deliverLiteral
  cases indexing <;> exact hdelivered

/-- A literal is passed over if the budget refuses it and the table, if it is to enter there, does
so too. -/
theorem passesOver_eq_true_iff {indexing : Wire.Indexing} {length : Nat} :
    (decoder.passesOver indexing length).1 = true ↔
      decoder.budget.admits length = false ∧
        (indexing = .incremental → decoder.table.capacity < length + Field.overhead) := by
  unfold passesOver
  cases hadmits : decoder.budget.admits length with
  | true => simp
  | false =>
    cases indexing with
    | without => simp
    | never => simp
    | incremental =>
      by_cases hcapacity : decoder.table.capacity < length + Field.overhead
      · simp [hcapacity]
      · simp [hcapacity]

theorem budget_passesOver (indexing : Wire.Indexing) {length : Nat}
    (hrefused : decoder.budget.admits length = false) :
    (decoder.passesOver indexing length).2.budget = decoder.budget.exhaust := by
  unfold passesOver
  rw [hrefused, if_neg Bool.false_ne_true]
  cases indexing with
  | without => rfl
  | never => rfl
  | incremental =>
    dsimp only
    split <;> rfl

theorem passesOver_of_admits {indexing : Wire.Indexing} {length : Nat}
    (hadmits : decoder.budget.admits length = true) :
    decoder.passesOver indexing length = (false, decoder) := by
  rw [passesOver, if_pos hadmits]

theorem isExhausted_passesOver (indexing : Wire.Indexing) {length : Nat}
    (hrefused : decoder.budget.admits length = false) :
    (decoder.passesOver indexing length).2.budget.IsExhausted := by
  rw [budget_passesOver indexing hrefused]
  exact Budget.isExhausted_exhaust hrefused

theorem Decided.charged {decided : Decoder} (hdecided : decoder.Decided decided) :
    decoder.budget.Charged decided.budget none := by
  cases hdecided with
  | undecided => exact .untouched
  | decision indexing length =>
    cases hadmits : decoder.budget.admits length with
    | true =>
      rw [passesOver_of_admits hadmits]
      exact .untouched
    | false =>
      rw [budget_passesOver indexing hadmits]
      exact .exhausted hadmits

theorem Move.charged (hmove : decoder.Move completed) :
    decoder.budget.Charged completed.1.budget completed.2 := by
  cases hmove with
  | indexed hfield => exact decoder.deliver_charged _
  | valueRead hstage value => exact decoder.deliverLiteral_charged _ _
  | nameKept hkept hpos hlongest => exact (Decided.of_eq hkept).charged
  | nameSkipped hskipped hpos hlongest => exact (Decided.of_eq hskipped).charged
  | valueKept hstage hkept hpos hlongest => exact (Decided.of_eq hkept).charged
  | valueSkipped hdecided hpos hlongest => exact hdecided.charged
  | valueDropped hdecided => exact hdecided.charged
  | @valueEmpty indexing name part decided hstage hdecided =>
    exact hdecided.charged.trans (decided.deliverLiteral_charged _ _)
  | _ => exact .untouched

/-! ## Runs -/

theorem Waits.budget_eq (hwaits : decoder.Waits next) : next.budget = decoder.budget := by
  cases hwaits <;> rfl

theorem run_chargedBy (decoder : Decoder) (steps : Nat) (unread : Octets) :
    decoder.budget.ChargedBy (decoder.run steps unread).decoder.budget
      (decoder.run steps unread).headers := by
  fun_induction Decoder.run steps decoder unread with
  | case1 decoder unread => exact .refl decoder.budget
  | case2 steps decoder => exact .refl decoder.budget
  | case3 steps decoder unread hne next header? rest hstep hrest =>
    exact .head (move_of_step hstep).charged hrest
  | case4 steps decoder unread hne next rest hstep =>
    rw [(waits_of_step hstep).budget_eq]
    exact .refl decoder.budget
  | case5 steps decoder unread hne error rest hstep => exact .refl decoder.budget

end Decoder

end HeaderCompression
