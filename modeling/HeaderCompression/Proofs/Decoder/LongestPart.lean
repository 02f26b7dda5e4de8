import HeaderCompression.Proofs.Decoder.Budgets
import HeaderCompression.Proofs.Decoder.Truncation
import HeaderCompression.Proofs.LongestWithin

/-!
# Truncation and the headers

A decoder with a limited budget goes along with the same decoder without a limit as long as it
admits the headers. It falls behind with the first header that it does not admit, and perhaps before
that header is complete: the lengths announced so far say already that the header is too long. From
then on it delivers nothing, so what it delivers is the longest part that the budget admits.
-/

namespace HeaderCompression

open Octets Table Wire

/-! ## Longest parts of header lists -/

theorem isLongestWithin_cons {header : Header} {headers kept : List Header} {bound : Nat}
    (hfits : header.field.length ≤ bound)
    (hkept : IsLongestWithin totalLength (bound - header.field.length) headers kept) :
    IsLongestWithin totalLength bound (header :: headers) (header :: kept) where
  isPrefix := List.cons_prefix_cons.2 ⟨rfl, hkept.isPrefix⟩
  within := by
    have hrest := hkept.within
    rw [totalLength]
    omega
  longest part hpart hbound := by
    cases part with
    | nil => exact Nat.zero_le _
    | cons first part =>
      obtain ⟨rfl, hrest⟩ := List.cons_prefix_cons.1 hpart
      rw [totalLength] at hbound
      exact Nat.succ_le_succ (hkept.longest part hrest (by omega))

/-- Nothing is within a bound that the first header exceeds. -/
theorem isLongestWithin_nil {header : Header} {headers : List Header} {bound : Nat}
    (hlong : bound < header.field.length) :
    IsLongestWithin totalLength bound (header :: headers) [] where
  isPrefix := List.nil_prefix
  within := Nat.zero_le bound
  longest part hpart hbound := by
    cases part with
    | nil => exact Nat.le_refl 0
    | cons first part =>
      obtain ⟨rfl, -⟩ := List.cons_prefix_cons.1 hpart
      rw [totalLength] at hbound
      omega

/-! ## Announced lengths -/

/-- The least length of the header that the literal being read will be. -/
def Stage.leastLength? : Stage → Option Nat
  | .name _ huffman length => some (StringLiteral.minimumDecodedLength huffman length)
  | .valueLength _ (some octets) _ => some octets.length
  | .value _ octets huffman length =>
    some (octets.length + StringLiteral.minimumDecodedLength huffman length)
  | _ => none

namespace Decoder

variable {kept passed next : Decoder} {header? : Option Header} {unread rest : Octets}
  {budget : Budget} {least : Nat}

/-- The header that a step has delivered, or else the one that its literal will be, has at least
this length. -/
inductive Promises (least : Nat) (next : Decoder) : Option Header → Prop
  | header {header : Header} (hleast : least ≤ header.field.length) :
    Promises least next (some header)
  | literal {more : Nat} (hstage : next.stage.leastLength? = some more) (hleast : least ≤ more) :
    Promises least next none

theorem Promises.mono {more : Nat} (hpromises : Promises more next header?)
    (hleast : least ≤ more) : Promises least next header? := by
  cases hpromises with
  | header hlength => exact .header (Nat.le_trans hleast hlength)
  | literal hstage hlength => exact .literal hstage (Nat.le_trans hleast hlength)

theorem snd_deliverLiteral (hlimit : Size.largest ≤ kept.budget.limit) (indexing : Indexing)
    (field : Field) :
    (kept.deliverLiteral indexing field).2 = some { field, sensitive := indexing = .never } := by
  unfold deliverLiteral
  rw [deliver_eq hlimit]
  cases indexing <;> rfl

theorem promises_of_deliverLiteral (hlimit : Size.largest ≤ kept.budget.limit)
    {indexing : Indexing} {field : Field}
    (hdelivered : kept.deliverLiteral indexing field = (next, header?)) :
    Promises field.length next header? := by
  have hheader : header? = some { field, sensitive := indexing = .never } := by
    rw [← snd_deliverLiteral hlimit, hdelivered]
  rw [hheader]
  exact .header (Nat.le_refl field.length)

theorem promises_of_valueLengthKnown (hlimit : Size.largest ≤ kept.budget.limit)
    {indexing : Indexing} {name : Octets} {huffman : Bool} {length : Nat}
    (hknown : kept.valueLengthKnown indexing (some name) huffman length = .ok (next, header?)) :
    Promises (name.length + StringLiteral.minimumDecodedLength huffman length) next header? := by
  unfold valueLengthKnown at hknown
  dsimp only at hknown
  rw [passesOver_eq hlimit, if_neg Bool.false_ne_true] at hknown
  by_cases hzero : length = 0
  · have hleast : StringLiteral.minimumDecodedLength huffman 0 = 0 := by
      cases huffman <;> rfl
    rw [if_pos hzero] at hknown
    rw [hzero, hleast]
    exact promises_of_deliverLiteral hlimit (Except.ok.inj hknown)
  · rw [if_neg hzero] at hknown
    obtain ⟨rfl, rfl⟩ := Prod.mk.inj (Except.ok.inj hknown)
    exact .literal rfl (Nat.le_refl _)

/-- A step into a literal tells no less about the length of the header than what was known. -/
theorem promises_of_step (hlimit : Size.largest ≤ kept.budget.limit)
    (hstage : kept.stage.leastLength? = some least)
    (hstep : kept.step unread = .advanced next header? rest) : Promises least next header? := by
  unfold step at hstep
  cases hcase : kept.stage with
  | name indexing huffman length =>
    rw [hcase] at hstep hstage
    obtain rfl := Option.some.inj hstage
    obtain ⟨name, hread, hname⟩ := exists_of_stepWith_advanced hstep
    unfold nameKnown at hname
    split at hname
    · cases hname
    · obtain ⟨rfl, rfl⟩ := Prod.mk.inj (Except.ok.inj hname)
      exact .literal rfl (StringLiteral.minimumDecodedLength_le hread)
  | valueLength indexing name? part =>
    rw [hcase] at hstep hstage
    cases name? with
    | none => cases hstage
    | some name =>
      obtain rfl := Option.some.inj hstage
      obtain ⟨reading, -, hknown⟩ := exists_of_stepWith_advanced hstep
      cases reading with
      | toBeContinued huffman =>
        obtain ⟨rfl, rfl⟩ := Prod.mk.inj (Except.ok.inj hknown)
        exact .literal rfl (Nat.le_refl name.length)
      | known huffman length =>
        exact (promises_of_valueLengthKnown hlimit hknown).mono (Nat.le_add_right _ _)
  | value indexing name huffman length =>
    rw [hcase] at hstep hstage
    obtain rfl := Option.some.inj hstage
    obtain ⟨value, hread, hvalue⟩ := exists_of_stepWith_advanced hstep
    have hdelivered := promises_of_deliverLiteral hlimit (Except.ok.inj hvalue)
    exact hdelivered.mono
      (Nat.add_le_add_left (StringLiteral.minimumDecodedLength_le hread) name.length)
  | _ =>
    rw [hcase] at hstage
    cases hstage

/-- The header that a literal promises comes first, if the run goes that far. -/
theorem exists_header_of_leastLength? (hkept : kept.Valid) (hunlimited : kept.IsUnlimited)
    (hstage : kept.stage.leastLength? = some least) (hwhole : (kept.consume unread).IsWhole) :
    ∃ header headers, (kept.consume unread).headers = header :: headers ∧
      least ≤ header.field.length := by
  induction kept, unread, hkept, hunlimited, hwhole using whole_induction generalizing least with
  | nil kept hkept hunlimited hwhole =>
    have hboundary : kept.stage = .boundary := hwhole.atBoundary
    rw [hboundary] at hstage
    cases hstage
  | advanced kept unread next header? rest hkept hunlimited hwhole hstep hnext hnextUnlimited
      hnextWhole hrest =>
    rw [consume_advanced hkept hstep]
    cases promises_of_step hunlimited.limit hstage hstep with
    | header hleast => exact ⟨_, _, rfl, hleast⟩
    | literal hnextStage hleast =>
      obtain ⟨header, headers, hheaders, hmore⟩ := hrest hnextStage
      exact ⟨header, headers, hheaders, Nat.le_trans hleast hmore⟩

theorem Promises.exists_header (hpromises : Promises least next header?) (hnext : next.Valid)
    (hunlimited : next.IsUnlimited) (hwhole : (next.consume unread).IsWhole) :
    ∃ header headers, ((next.consume unread).after header?).headers = header :: headers ∧
      least ≤ header.field.length := by
  cases hpromises with
  | header hleast => exact ⟨_, _, rfl, hleast⟩
  | literal hstage hleast =>
    obtain ⟨header, headers, hheaders, hmore⟩ :=
      exists_header_of_leastLength? hnext hunlimited hstage hwhole
    exact ⟨header, headers, hheaders, Nat.le_trans hleast hmore⟩

/-! ## Going along -/

/-- The same decoder with another budget. -/
def withBudget (decoder : Decoder) (budget : Budget) : Decoder :=
  { decoder with budget }

theorem Valid.withBudget {decoder : Decoder} (hvalid : decoder.Valid)
    (hused : budget.used ≤ Size.largest) : (decoder.withBudget budget).Valid :=
  { hvalid with budget := hused }

/-- What an element comes to with a budget that is limited, beside what it comes to without. -/
inductive Tracks (budget : Budget) (first second : Decoder × Option Header) : Prop
  | along (hadmits : ∀ header ∈ first.2, budget.admits header.field.length = true)
    (hsame : second = (first.1.withBudget (budget.charge first.2), first.2))
  | behind {least : Nat} (hpromises : Promises least first.1 first.2)
    (hrefused : budget.admits least = false) (hexhausted : second.1.budget.IsExhausted)
    (hnone : second.2 = none)

/-- If the one element leads somewhere, the other one goes along or falls behind. -/
def Transition.IsTrackedBy (budget : Budget) (first second : Transition) : Prop :=
  ∀ completed, first = .ok completed → ∃ other, second = .ok other ∧ Tracks budget completed other

theorem Transition.isTrackedBy_ok {first second : Decoder × Option Header}
    (htracks : Tracks budget first second) :
    Transition.IsTrackedBy budget (.ok first) (.ok second) := by
  intro completed hcompleted
  obtain rfl := Except.ok.inj hcompleted
  exact ⟨second, rfl, htracks⟩

theorem Transition.isTrackedBy_error (error : DecodingError) (second : Transition) :
    Transition.IsTrackedBy budget (.error error) second := by
  intro completed hcompleted
  cases hcompleted

theorem Transition.isTrackedBy_bind {α : Type} (result : Except DecodingError α)
    {first second : α → Transition}
    (hboth : ∀ value, (first value).IsTrackedBy budget (second value)) :
    Transition.IsTrackedBy budget (result >>= first) (result >>= second) := by
  cases result with
  | error error => exact Transition.isTrackedBy_error error _
  | ok value => exact hboth value

theorem enter_isTrackedBy (decoder : Decoder) (stage : Stage) :
    (decoder.enter stage).IsTrackedBy budget ((decoder.withBudget budget).enter stage) := by
  apply Transition.isTrackedBy_ok
  exact .along (fun header hheader ↦ absurd hheader (Option.not_mem_none header)) rfl

theorem deliver_tracks (hlimit : Size.largest ≤ kept.budget.limit) (header : Header) :
    Tracks budget (kept.deliver header) ((kept.withBudget budget).deliver header) := by
  rw [deliver_eq hlimit]
  unfold deliver withBudget
  cases hadmits : budget.admits header.field.length with
  | true =>
    refine .along ?_ rfl
    intro delivered hdelivered
    rwa [← Option.some.inj hdelivered]
  | false =>
    exact .behind (.header (Nat.le_refl _)) hadmits (Budget.isExhausted_exhaust hadmits) rfl

theorem deliverLiteral_tracks (hlimit : Size.largest ≤ kept.budget.limit) (indexing : Indexing)
    (field : Field) :
    Tracks budget (kept.deliverLiteral indexing field)
      ((kept.withBudget budget).deliverLiteral indexing field) := by
  have hdelivered : Tracks budget (kept.deliver { field, sensitive := indexing = .never })
      ((kept.withBudget budget).deliver { field, sensitive := indexing = .never }) :=
    deliver_tracks hlimit _
  unfold deliverLiteral
  cases indexing with
  | without => exact hdelivered
  | never => exact hdelivered
  | incremental =>
    cases hdelivered with
    | behind hpromises hrefused hexhausted hnone =>
      rw [deliver_eq hlimit] at hpromises ⊢
      cases hpromises with
      | header hleast => exact .behind (.header hleast) hrefused hexhausted hnone
    | along hadmits hsame =>
      rw [hsame]
      exact .along hadmits rfl

/-! ## One rule for each element -/

theorem indexKnown_isTrackedBy (hlimit : Size.largest ≤ kept.budget.limit) (opening : Opening)
    (value : Nat) :
    (kept.indexKnown opening value).IsTrackedBy budget
      ((kept.withBudget budget).indexKnown opening value) := by
  unfold indexKnown
  cases opening with
  | indexed =>
    apply Transition.isTrackedBy_bind
    intro field
    exact Transition.isTrackedBy_ok (deliver_tracks hlimit { field })
  | literal indexing =>
    dsimp only
    split
    · exact enter_isTrackedBy kept _
    · apply Transition.isTrackedBy_bind
      intro field
      exact enter_isTrackedBy kept _
  | sizeUpdate =>
    unfold resize withBudget
    dsimp only
    split
    · exact Transition.isTrackedBy_error _ _
    · exact enter_isTrackedBy { kept with table := kept.table.setCapacity value } .boundary

theorem openingKnown_isTrackedBy (hlimit : Size.largest ≤ kept.budget.limit) (octet : UInt8) :
    (kept.openingKnown octet).IsTrackedBy budget
      ((kept.withBudget budget).openingKnown octet) := by
  unfold openingKnown
  dsimp only
  split
  · exact indexKnown_isTrackedBy hlimit _ _
  · exact enter_isTrackedBy kept _

theorem nameKnown_isTrackedBy (decoder : Decoder) (indexing : Indexing) (name : Octets) :
    (decoder.nameKnown indexing name).IsTrackedBy budget
      ((decoder.withBudget budget).nameKnown indexing name) := by
  unfold nameKnown
  split
  · exact Transition.isTrackedBy_error _ _
  · exact enter_isTrackedBy decoder _

theorem nameLengthKnown_isTrackedBy (hlimit : Size.largest ≤ kept.budget.limit)
    (indexing : Indexing) (huffman : Bool) (length : Nat) :
    (kept.nameLengthKnown indexing huffman length).IsTrackedBy budget
      ((kept.withBudget budget).nameLengthKnown indexing huffman length) := by
  unfold nameLengthKnown
  split
  · exact Transition.isTrackedBy_error _ _
  · dsimp only
    rw [passesOver_eq hlimit, if_neg Bool.false_ne_true]
    cases hadmits : budget.admits (StringLiteral.minimumDecodedLength huffman length) with
    | true =>
      rw [passesOver_of_admits (by exact hadmits), if_neg Bool.false_ne_true]
      exact enter_isTrackedBy kept _
    | false =>
      apply Transition.isTrackedBy_ok
      have hexhausted : ((kept.withBudget budget).passesOver indexing
          (StringLiteral.minimumDecodedLength huffman length)).2.budget.IsExhausted :=
        isExhausted_passesOver indexing hadmits
      exact .behind (.literal rfl (Nat.le_refl _)) hadmits hexhausted rfl

/-- A literal that is too long is not delivered, whether or not it is passed over. -/
theorem valueLengthKnown_of_refused {decoder : Decoder} {indexing : Indexing} {name : Octets}
    {huffman : Bool} {length : Nat}
    (hrefused : decoder.budget.admits
      (name.length + StringLiteral.minimumDecodedLength huffman length) = false) :
    ∃ follower, decoder.valueLengthKnown indexing (some name) huffman length =
        .ok (follower, none) ∧
      follower.budget.IsExhausted := by
  have hexhausted := isExhausted_passesOver indexing hrefused
  unfold valueLengthKnown
  dsimp only
  generalize decoder.passesOver indexing
    (name.length + StringLiteral.minimumDecodedLength huffman length) = decided at hexhausted ⊢
  split
  · exact ⟨_, rfl, hexhausted⟩
  · split
    · obtain ⟨hfollower, hnone⟩ :=
        (decided.2.deliverLiteral_charged indexing ⟨name, []⟩).of_isExhausted hexhausted
      exact ⟨_, congrArg Except.ok (Prod.ext rfl hnone), hfollower⟩
    · exact ⟨_, rfl, hexhausted⟩

theorem valueLengthKnown_isTrackedBy (hlimit : Size.largest ≤ kept.budget.limit)
    (indexing : Indexing) (name : Octets) (huffman : Bool) (length : Nat) :
    (kept.valueLengthKnown indexing (some name) huffman length).IsTrackedBy budget
      ((kept.withBudget budget).valueLengthKnown indexing (some name) huffman length) := by
  cases hadmits : budget.admits
      (name.length + StringLiteral.minimumDecodedLength huffman length) with
  | false =>
    intro completed hcompleted
    have hrefused : (kept.withBudget budget).budget.admits
      (name.length + StringLiteral.minimumDecodedLength huffman length) = false := hadmits
    obtain ⟨follower, hfollower, hexhausted⟩ := valueLengthKnown_of_refused hrefused
    have hpromises := promises_of_valueLengthKnown hlimit hcompleted
    exact ⟨_, hfollower, .behind hpromises hadmits hexhausted rfl⟩
  | true =>
    unfold valueLengthKnown
    dsimp only
    rw [passesOver_eq hlimit, passesOver_of_admits (by exact hadmits), if_neg Bool.false_ne_true,
      if_neg Bool.false_ne_true]
    split
    · exact Transition.isTrackedBy_ok (deliverLiteral_tracks hlimit indexing _)
    · exact enter_isTrackedBy kept _

/-! ## Steps -/

theorem stepWith_tracks {α : Type} {reader : Octets → Reading α} {first second : α → Transition}
    (hboth : ∀ element, (first element).IsTrackedBy budget (second element))
    (hstep : kept.stepWith unread reader first = .advanced next header? rest) :
    ∃ other, passed.stepWith unread reader second = .advanced other.1 other.2 rest ∧
      Tracks budget (next, header?) other := by
  obtain ⟨element, hread, hfirst⟩ := exists_of_stepWith_advanced hstep
  obtain ⟨other, hsecond, htracks⟩ := hboth element (next, header?) hfirst
  exact ⟨other, stepWith_of_complete hread hsecond, htracks⟩

/-- A step without a limit is taken with a limited budget too, along with it or falling behind. -/
theorem step_tracks (budget : Budget) (hunlimited : kept.IsUnlimited)
    (hstep : kept.step unread = .advanced next header? rest) :
    ∃ other, (kept.withBudget budget).step unread = .advanced other.1 other.2 rest ∧
      Tracks budget (next, header?) other := by
  have hlimit := hunlimited.limit
  have hkeeps := hunlimited.keepsAll
  have hstage : (kept.withBudget budget).stage = kept.stage := rfl
  unfold step at hstep ⊢
  rw [hstage]
  cases hcase : kept.stage with
  | boundary =>
    rw [hcase] at hstep
    exact stepWith_tracks (openingKnown_isTrackedBy hlimit) hstep
  | index opening =>
    rw [hcase] at hstep
    exact stepWith_tracks (fun rest ↦ indexKnown_isTrackedBy hlimit opening _) hstep
  | nameLength indexing part =>
    rw [hcase] at hstep
    refine stepWith_tracks (fun reading ↦ ?_) hstep
    cases reading with
    | toBeContinued huffman => exact enter_isTrackedBy kept _
    | known huffman length => exact nameLengthKnown_isTrackedBy hlimit indexing huffman length
  | name indexing huffman length =>
    rw [hcase] at hstep
    exact stepWith_tracks (nameKnown_isTrackedBy kept indexing) hstep
  | skippedName indexing remaining =>
    rw [hcase] at hkeeps
    exact hkeeps.elim
  | valueLength indexing name? part =>
    rw [hcase] at hstep hkeeps
    cases name? with
    | none => exact hkeeps.elim
    | some name =>
      refine stepWith_tracks (fun reading ↦ ?_) hstep
      cases reading with
      | toBeContinued huffman => exact enter_isTrackedBy kept _
      | known huffman length =>
        exact valueLengthKnown_isTrackedBy hlimit indexing name huffman length
  | value indexing name huffman length =>
    rw [hcase] at hstep
    refine stepWith_tracks (fun value ↦ ?_) hstep
    exact Transition.isTrackedBy_ok (deliverLiteral_tracks hlimit indexing ⟨name, value⟩)
  | skippedValue remaining =>
    rw [hcase] at hkeeps
    exact hkeeps.elim

/-! ## Runs -/

/-- The one outcome has the longest part of the headers of the other that a budget admits, and its
budget is exceeded exactly if that is not all. -/
structure Outcome.Truncates (budget : Budget) (whole part : Outcome) : Prop where
  longest :
    IsLongestWithin totalLength (budget.limit - budget.used) whole.headers part.headers
  isExceeded_iff : part.decoder.budget.isExceeded = true ↔ part.headers ≠ whole.headers

theorem Outcome.Truncates.after {whole part : Outcome} (hlimited : budget.limit < Size.largest)
    (hadmits : ∀ header ∈ header?, budget.admits header.field.length = true)
    (htruncates : Truncates (budget.charge header?) whole part) :
    Truncates budget (whole.after header?) (part.after header?) := by
  cases header? with
  | none => exact htruncates
  | some header =>
    have hfits := Budget.admits_eq_true_iff.1 (hadmits header rfl)
    have hused : (budget.charge (some header)).used = budget.used + header.field.length := by
      change min (budget.used + header.field.length) Size.largest = _
      omega
    have hleft : (budget.charge (some header)).limit - (budget.charge (some header)).used =
        budget.limit - budget.used - header.field.length := by
      rw [hused]
      exact Nat.sub_add_eq budget.limit budget.used header.field.length
    have hlongest := htruncates.longest
    rw [hleft] at hlongest
    refine ⟨isLongestWithin_cons (by omega) hlongest, htruncates.isExceeded_iff.trans ?_⟩
    exact not_congr (List.cons_inj_right header).symm

/-- If the first header is too long, nothing is all that is admitted. -/
theorem Outcome.truncates_of_refused {whole part : Outcome} {header : Header}
    {headers : List Header} (hused : budget.used ≤ budget.limit)
    (hwhole : whole.headers = header :: headers)
    (hrefused : budget.admits least = false) (hleast : least ≤ header.field.length)
    (hexhausted : part.decoder.budget.IsExhausted) (hnone : part.headers = []) :
    Truncates budget whole part := by
  have hlong := (Budget.lt_of_admits_eq_false hrefused).2
  constructor
  · rw [hwhole, hnone]
    exact isLongestWithin_nil (by omega)
  · rw [hwhole, hnone]
    exact iff_of_true (decide_eq_true hexhausted.exceeded) (List.cons_ne_nil header headers).symm

/-- Whatever is left of a block, the headers that are delivered are the longest part that the rest
of the budget admits. -/
theorem consume_truncates (hkept : kept.Valid) (hunlimited : kept.IsUnlimited)
    (hlimited : budget.limit < Size.largest) (hused : budget.used ≤ budget.limit)
    (hwhole : (kept.consume unread).IsWhole) :
    (kept.consume unread).Truncates budget ((kept.withBudget budget).consume unread) := by
  induction kept, unread, hkept, hunlimited, hwhole using whole_induction generalizing budget with
  | nil kept hkept hunlimited hwhole =>
    refine ⟨isLongestWithin_self (Nat.zero_le _), iff_of_false ?_ (not_not_intro rfl)⟩
    rw [Bool.not_eq_true]
    exact decide_eq_false (Nat.not_lt.2 hused)
  | advanced kept unread next header? rest hkept hunlimited hwhole hstep hnext hnextUnlimited
      hnextWhole hrest =>
    have hpart : (kept.withBudget budget).Valid :=
      hkept.withBudget (Nat.le_trans hused (Nat.le_of_lt hlimited))
    obtain ⟨⟨follower, followerHeader?⟩, hfollower, htracks⟩ :=
      step_tracks budget hunlimited hstep
    rw [consume_advanced hkept hstep, consume_advanced hpart hfollower]
    cases htracks with
    | along hadmits hsame =>
      obtain ⟨rfl, rfl⟩ := Prod.mk.inj hsame
      have hcharged : (budget.charge followerHeader?).limit < Size.largest := by
        rwa [Budget.limit_charge]
      exact (hrest hcharged (Budget.used_charge_le hused hadmits)).after hlimited hadmits
    | behind hpromises hrefused hexhausted hnone =>
      -- Without a limit the promised header is the next one, and it is the first that does not fit.
      obtain ⟨header, headers, hheaders, hleast⟩ :=
        hpromises.exists_header hnext hnextUnlimited hnextWhole
      obtain ⟨hend, hnothing⟩ :=
        (follower.run_chargedBy rest.length rest).of_isExhausted hexhausted
      change followerHeader? = none at hnone
      subst hnone
      exact Outcome.truncates_of_refused hused hheaders hrefused hleast hend hnothing

end Decoder

end HeaderCompression
