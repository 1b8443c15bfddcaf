import Narrowing.Proofs.LargerLimits

/-!
The trace of a comparison is a faithful account of it. `Recounts` is the grammar of
traces: remarks, attempts that were turned away, and spans that end with what was
computed, each told for the attempt that was made at that point. The trace of every
comparison that has an answer is of this form (`recounts_compareWithin`), and what
is shown at a point of the trace follows from the form alone.
-/

namespace Narrowing

/-- The spans that are open after some entries, the last one first, if `spans` were open before them. There is no
    answer if more spans are closed than were open. -/
def openSpans (spans : List (TypeId × TypeId)) : List Entry → Option (List (TypeId × TypeId))
  | [] => some spans
  | .opened l r :: rest => openSpans ((l, r) :: spans) rest
  | .event _ :: rest => openSpans spans rest
  | .closed :: rest =>
    match spans with
    | [] => none
    | _ :: outer => openSpans outer rest

theorem openSpans_append (spans : List (TypeId × TypeId)) (first second : List Entry) :
    openSpans spans (first ++ second) = (openSpans spans first).bind fun between => openSpans between second := by
  induction first generalizing spans with
  | nil => rfl
  | cons entry rest ih =>
    cases entry with
    | opened l r => exact ih _
    | event event => exact ih _
    | closed =>
      cases spans with
      | nil => rfl
      | cons _ outer => exact ih outer

/-- Spans of different unordered pairs, no more of them than may be nested. -/
structure Limits.Allows (limits : Limits) (spans : List (TypeId × TypeId)) : Prop where
  distinct : (spans.map fun p => TypePair.of p.1 p.2).Nodup
  bounded : spans.length ≤ limits.maxDepth

namespace Entry

def isOpened : Entry → Bool
  | .opened .. => true
  | _ => false

def isAssumed : Entry → Bool
  | .event (.assumed ..) => true
  | _ => false

def isRefused : Entry → Bool
  | .event (.refused ..) => true
  | _ => false

theorem length_tried (trace : List Entry) :
    (trace.filterMap tried?).length = trace.countP isOpened + trace.countP isAssumed + trace.countP isRefused := by
  induction trace with
  | nil => rfl
  | cons entry rest ih =>
    simp only [List.filterMap_cons, List.countP_cons]
    rcases entry with _ | event | _
    case event => cases event <;> simp [tried?, isOpened, isAssumed, isRefused] <;> omega
    all_goals simp [tried?, isOpened, isAssumed, isRefused]; omega

end Entry

theorem Guard.iterations_enter {κ : Type} [DecidableEq κ] (g : Guard κ) (key : κ) :
    (g.enter key).2.iterations = min (g.iterations + 1) Limits.ceiling := by
  rcases g.enter_cases key with ⟨-, result⟩ | ⟨-, -, result⟩ | ⟨-, -, -, result⟩ | ⟨-, -, -, result⟩ <;>
    simp [result, counted]

namespace Environment

/-- Traces that give an account of attempts which are made, one after the other, while some spans are open. -/
inductive Recounts (env : Environment) (limits : Limits) :
    List (TypeId × TypeId) → List Attempt → List Entry → Prop where
  | nothing {spans : List (TypeId × TypeId)} : Recounts env limits spans [] []
  | remark {spans : List (TypeId × TypeId)} {attempts : List Attempt} {event : Event} {rest : List Entry} :
      (Entry.event event).tried? = none → Recounts env limits spans attempts rest →
        Recounts env limits spans attempts (.event event :: rest)
  | assumed {a : Attempt} {attempts : List Attempt} {rest : List Entry} :
      AttemptSound .univ limits a → a.entrance = .cycle → Recounts env limits a.path attempts rest →
        Recounts env limits a.path (a :: attempts) (.event (.assumed a.lhs a.rhs) :: rest)
  | refused {a : Attempt} {attempts : List Attempt} {rest : List Entry} :
      AttemptSound .univ limits a → a.entrance.isRefusal → Recounts env limits a.path attempts rest →
        Recounts env limits a.path (a :: attempts) (.event (.refused a.lhs a.rhs) :: rest)
  | span {a : Attempt} {s : Selector} {inner later : List Attempt} {inside rest : List Entry} :
      AttemptSound .univ limits a → a.entrance = .entered → (env.compareFrom a.guard a.lhs a.rhs).answer = .ok s →
        Recounts env limits ((a.lhs, a.rhs) :: a.path) inner inside → Recounts env limits a.path later rest →
          Recounts env limits a.path (a :: inner ++ later)
            (.opened a.lhs a.rhs :: inside ++ .event (.computed s) :: .closed :: rest)

variable {env : Environment} {limits : Limits}

/-! ### Every comparison is recounted -/

theorem Recounts.append {spans : List (TypeId × TypeId)} {attempts later : List Attempt} {trace rest : List Entry}
    (first : env.Recounts limits spans attempts trace) (second : env.Recounts limits spans later rest) :
    env.Recounts limits spans (attempts ++ later) (trace ++ rest) := by
  induction first with
  | nothing => exact second
  | remark plain _ ih => exact .remark plain (ih second)
  | assumed sound cycle _ ih => exact .assumed sound cycle (ih second)
  | refused sound refusal _ ih => exact .refused sound refusal (ih second)
  | span sound entered answered inner _ _ ih =>
    simpa using Recounts.span sound entered answered inner (ih second)

theorem recounts_run {compare : Guard TypePair → TypeId → TypeId → Run} {start : Guard TypePair}
    {attempts : Guard TypePair → TypeId → TypeId → List Attempt} {spans : List (TypeId × TypeId)}
    (steady : KeepsPath compare start)
    (compared : ∀ g, start.SamePath g → ∀ l r s, (compare g l r).answer = .ok s →
      env.Recounts limits spans (attempts g l r) (compare g l r).trace)
    {g : Guard TypePair} (same : start.SamePath g) {i : Inquiry} (plain : i.Plain) {s : Selector}
    (answered : (i.run compare g).answer = .ok s) :
    env.Recounts limits spans (i.attempts compare attempts g) (i.run compare g).trace := by
  induction i generalizing g with
  | done => exact .nothing
  | fail => simp [Inquiry.run] at answered
  | note event next ih => exact .remark plain.1 (ih same plain.2 answered)
  | ask l r next ih =>
    simp only [Inquiry.run, Inquiry.attempts] at answered ⊢
    cases found : (compare g l r).answer with
    | error fault => simp [found] at answered
    | ok t =>
      simp only [found] at answered ⊢
      exact (compared g same l r t found).append (ih t (same.trans (steady g same l r t found)) (plain t) answered)

theorem recounts_turnedAway {a : Attempt} (sound : AttemptSound .univ limits a) (outside : a.entrance ≠ .entered) :
    env.Recounts limits a.path [a] (Run.turnedAway (a.guard.enter (.of a.lhs a.rhs)) a.lhs a.rhs).trace := by
  by_cases cycle : a.entrance = .cycle
  · simpa only [Run.turnedAway, if_pos (show (a.guard.enter _).1 = _ from cycle)] using .assumed sound cycle .nothing
  · have refusal : a.entrance.isRefusal := by
      cases known : a.entrance <;> simp_all [Entrance.isRefusal]
    simpa only [Run.turnedAway, if_neg (show ¬ (a.guard.enter _).1 = _ from cycle)] using
      .refused sound refusal .nothing

/-- The run of the rule for a pair that was entered is told inside its span. -/
theorem recounts_rule {room : Nat} {path : List (TypeId × TypeId)} {g : Guard TypePair} {l r : TypeId} {s : Selector}
    (compared : ∀ g' a b t, g'.room = room → AttemptSound .univ limits ⟨(l, r) :: path, g', a, b⟩ →
      (env.compareWithin room g' a b).answer = .ok t →
        env.Recounts limits ((l, r) :: path) (env.attemptsWithin room ((l, r) :: path) g' a b)
          (env.compareWithin room g' a b).trace)
    (exact : g.room = room + 1) (sound : AttemptSound .univ limits ⟨path, g, l, r⟩)
    (entered : (g.enter (.of l r)).1 = .entered)
    (answered : ((env.rule l r).run (env.compareWithin room) (g.enter (.of l r)).2).answer = .ok s) :
    env.Recounts limits ((l, r) :: path)
      ((env.rule l r).attempts (env.compareWithin room) (env.attemptsWithin room ((l, r) :: path))
        (g.enter (.of l r)).2)
      ((env.rule l r).run (env.compareWithin room) (g.enter (.of l r)).2).trace := by
  have left_over := Guard.room_enter entered
  refine recounts_run (keepsPath_compareWithin (by omega)) (fun g' same a b t => ?_) (.refl _) (plain_rule l r) answered
  exact compared g' a b t (by rw [same.room]; omega) (sound.below entered same trivial trivial)

theorem trace_enclose_ok {run : Run} {s : Selector} (answered : run.answer = .ok s) (l r : TypeId) :
    (run.enclose l r).trace = .opened l r :: run.trace ++ [.event (.computed s), .closed] := by
  simp [Run.enclose, answered]

theorem recounts_compareWithin {room : Nat} {path : List (TypeId × TypeId)} {g : Guard TypePair} {l r : TypeId}
    {s : Selector} (exact : g.room = room) (sound : AttemptSound .univ limits ⟨path, g, l, r⟩)
    (answered : (env.compareWithin room g l r).answer = .ok s) :
    env.Recounts limits path (env.attemptsWithin room path g l r) (env.compareWithin room g l r).trace := by
  induction room generalizing path g l r s with
  | zero =>
    refine recounts_turnedAway sound fun entered => ?_
    have room_left : 0 < g.room := room_pos_of_entered entered
    omega
  | succ room ih =>
    by_cases entered : (g.enter (.of l r)).1 = .entered
    · have whole : (env.compareFrom g l r).answer = .ok s := by rwa [compareFrom, exact]
      rw [compareWithin_entered entered, answer_enclose] at answered
      have inner := recounts_rule (fun g' a b t room sound => ih room sound) exact sound entered answered
      rw [compareWithin_entered entered, trace_enclose_ok answered]
      simpa [attemptsWithin, entered] using Recounts.span sound entered whole inner .nothing
    · rw [compareWithin_turnedAway entered]
      simpa [attemptsWithin, entered] using recounts_turnedAway sound entered

/-! ### What an account shows -/

/-- The attempt that an entry tells of, by what follows the entry: a span has an end, before which the answer for its
    pair was computed, a pair that was assumed is that of an open span, and a pair that was refused met a limit. -/
def ToldBy (env : Environment) (a : Attempt) (after : List Entry) : Entry → Prop
  | .opened l r => (a.lhs, a.rhs) = (l, r) ∧ a.entrance = .entered ∧
      ∃ s inside rest, (env.compareFrom a.guard l r).answer = .ok s ∧ openSpans [] inside = some [] ∧
        after = inside ++ .event (.computed s) :: .closed :: rest
  | .event (.assumed l r) => (a.lhs, a.rhs) = (l, r) ∧ a.entrance = .cycle ∧
      TypePair.of l r ∈ a.path.map fun p => .of p.1 p.2
  | .event (.refused l r) => (a.lhs, a.rhs) = (l, r) ∧ a.entrance.isRefusal
  | _ => False

theorem ToldBy.append {a : Attempt} {after : List Entry} {entry : Entry} (told : env.ToldBy a after entry)
    (more : List Entry) : env.ToldBy a (after ++ more) entry := by
  match entry, told with
  | .opened l r, ⟨same, entered, s, inside, rest, answered, nested, split⟩ =>
    exact ⟨same, entered, s, inside, rest ++ more, answered, nested, by simp [split]⟩
  | .event (.assumed l r), told => exact told
  | .event (.refused l r), told => exact told

section
variable {spans : List (TypeId × TypeId)} {attempts : List Attempt} {trace : List Entry}
  (recounts : env.Recounts limits spans attempts trace)
include recounts

/-- Whatever is open before, the same is open after. -/
theorem Recounts.openSpans_eq (base : List (TypeId × TypeId)) : openSpans base trace = some base := by
  induction recounts generalizing base with
  | nothing => rfl
  | remark _ _ ih => exact ih base
  | assumed _ _ _ ih => exact ih base
  | refused _ _ _ ih => exact ih base
  | span _ _ _ _ _ ihInside ihRest =>
    simp only [List.cons_append, openSpans, openSpans_append, ihInside, Option.bind_some]
    exact ihRest base

theorem Recounts.tried : trace.filterMap Entry.tried? = attempts.map fun a => (a.lhs, a.rhs) := by
  induction recounts with
  | nothing => rfl
  | remark plain _ ih => simp [plain, ih]
  | assumed _ _ _ ih => simp [Entry.tried?, ih]
  | refused _ _ _ ih => simp [Entry.tried?, ih]
  | span _ _ _ _ _ ihInside ihRest => simp [Entry.tried?, List.filterMap_cons, ihInside, ihRest]

/-- An event tells of a refusal exactly if an attempt was refused. -/
theorem Recounts.refused_iff :
    (∃ l r, .event (.refused l r) ∈ trace) ↔ attempts.any (fun a => a.entrance.isRefusal) := by
  induction recounts with
  | nothing => simp
  | @remark _ _ event _ plain _ ih =>
    have other : ∀ l r, Entry.event (.refused l r) ≠ .event event := by
      rintro l r ⟨⟩
      simp [Entry.tried?] at plain
    simpa [other] using ih
  | assumed _ cycle _ ih => simpa [cycle, Entrance.isRefusal] using ih
  | @refused a _ _ _ refusal _ ih => simpa [refusal] using ⟨a.lhs, a.rhs, .inl ⟨rfl, rfl⟩⟩
  | span _ entered _ _ _ ihInside ihRest =>
    simp [entered, Entrance.isRefusal, exists_or, ihInside, ihRest]

end

/-- With the span of a pair that is entered, different pairs are open, and no more than allowed. -/
theorem AttemptSound.allows_span {types : Set TypeId} {a : Attempt} (sound : AttemptSound types limits a)
    (entered : a.entrance = .entered) : limits.Allows ((a.lhs, a.rhs) :: a.path) := by
  obtain ⟨new, fits, -⟩ := Guard.enter_entered entered
  have distinct := sound.distinct.nodup
  rw [sound.visiting] at new distinct
  rw [sound.depth, sound.limits] at fits
  exact ⟨List.nodup_cons.mpr ⟨new, distinct⟩, fits⟩

/-- The points of a trace that begins with a span: before the span, inside, before its end, and after it. -/
theorem split_span {first computed last : Entry} {inside rest before after : List Entry}
    (split : first :: inside ++ computed :: last :: rest = before ++ after) :
    before = [] ∨ (∃ begun left, before = first :: begun ∧ inside = begun ++ left ∧
      after = left ++ computed :: last :: rest) ∨
    (before = first :: inside ++ [computed] ∧ after = last :: rest) ∨
    ∃ later, before = first :: inside ++ computed :: last :: later ∧ rest = later ++ after := by
  cases before with
  | nil => exact .inl rfl
  | cons x begun =>
    obtain ⟨rfl, behind⟩ := List.cons.inj split
    refine .inr ?_
    rcases List.append_eq_append_iff.mp behind with ⟨more, rfl, tail⟩ | ⟨left, rfl, rfl⟩
    · rcases more with _ | ⟨c, _ | ⟨e, later⟩⟩
      · exact .inl ⟨inside, [], by simp, by simp, tail.symm⟩
      · simp only [List.cons_append, List.nil_append, List.cons.injEq] at tail
        obtain ⟨rfl, rfl⟩ := tail
        exact .inr (.inl ⟨rfl, rfl⟩)
      · simp only [List.cons_append, List.cons.injEq] at tail
        obtain ⟨rfl, rfl, rfl⟩ := tail
        exact .inr (.inr ⟨later, rfl, rfl⟩)
    · exact .inl ⟨begun, left, rfl, rfl, rfl⟩

section
variable {spans : List (TypeId × TypeId)} {attempts : List Attempt} {trace : List Entry}
  (recounts : env.Recounts limits spans attempts trace)
include recounts

/-- At every point of an account the limits allow the spans that are open. -/
theorem Recounts.allows (allows : limits.Allows spans) {before after : List Entry} (split : trace = before ++ after) :
    ∃ between, openSpans spans before = some between ∧ limits.Allows between := by
  induction recounts generalizing before after with
  | nothing =>
    obtain ⟨rfl, -⟩ := List.append_eq_nil_iff.mp split.symm
    exact ⟨_, rfl, allows⟩
  | remark _ _ ih | assumed _ _ _ ih | refused _ _ _ ih =>
    cases before with
    | nil => exact ⟨_, rfl, allows⟩
    | cons _ begun =>
      obtain ⟨rfl, behind⟩ := List.cons.inj split
      simpa only [openSpans] using ih allows behind
  | @span a s inner later inside rest sound entered _ inner _ ihInside ihRest =>
    have allowsSpan := sound.allows_span entered
    rcases split_span split with rfl | ⟨begun, left, rfl, rfl, -⟩ | ⟨rfl, -⟩ | ⟨later, rfl, rfl⟩
    · exact ⟨_, rfl, allows⟩
    · exact ihInside allowsSpan rfl
    · refine ⟨(a.lhs, a.rhs) :: a.path, ?_, allowsSpan⟩
      simp [openSpans, openSpans_append, inner.openSpans_eq]
    · obtain ⟨between, found, allowed⟩ := ihRest allows rfl
      refine ⟨between, ?_, allowed⟩
      simpa [openSpans, openSpans_append, inner.openSpans_eq] using found

/-- Every entry about an attempt tells of the attempt that was made there. -/
theorem Recounts.told {before after : List Entry} {entry : Entry} (split : trace = before ++ entry :: after)
    (tried : entry.tried?.isSome) :
    ∃ a, attempts[(before.filterMap Entry.tried?).length]? = some a ∧ openSpans spans before = some a.path ∧
      env.ToldBy a after entry := by
  induction recounts generalizing before after with
  | nothing => simp at split
  | remark plain _ ih =>
    cases before with
    | nil =>
      obtain ⟨rfl, -⟩ := List.cons.inj split
      simp [plain] at tried
    | cons _ begun =>
      obtain ⟨rfl, behind⟩ := List.cons.inj split
      simpa [plain, openSpans] using ih behind
  | @assumed a _ _ sound cycle _ ih =>
    cases before with
    | nil =>
      obtain ⟨rfl, rfl⟩ := List.cons.inj split
      refine ⟨a, rfl, rfl, rfl, cycle, ?_⟩
      rw [← sound.visiting]
      exact a.mem_visiting_of_cycle cycle
    | cons _ begun =>
      obtain ⟨rfl, behind⟩ := List.cons.inj split
      simpa [Entry.tried?, openSpans] using ih behind
  | @refused a _ _ _ refusal _ ih =>
    cases before with
    | nil =>
      obtain ⟨rfl, rfl⟩ := List.cons.inj split
      exact ⟨a, rfl, rfl, rfl, refusal⟩
    | cons _ begun =>
      obtain ⟨rfl, behind⟩ := List.cons.inj split
      simpa [Entry.tried?, openSpans] using ih behind
  | @span a s innerAttempts later inside rest sound entered answered inner _ ihInside ihRest =>
    have count := congrArg List.length inner.tried
    rcases split_span split with rfl | ⟨begun, left, rfl, rfl, tail⟩ | ⟨rfl, tail⟩ | ⟨later, rfl, rfl⟩
    · obtain ⟨rfl, rfl⟩ := List.cons.inj split
      exact ⟨a, rfl, rfl, rfl, entered, s, inside, rest, answered, inner.openSpans_eq [], rfl⟩
    · cases left with
      | nil =>
        obtain ⟨rfl, -⟩ := List.cons.inj tail
        simp [Entry.tried?] at tried
      | cons _ left =>
        simp only [List.cons_append, List.cons.injEq] at tail
        obtain ⟨rfl, rfl⟩ := tail
        obtain ⟨c, made, found, told⟩ := ihInside rfl
        refine ⟨c, ?_, found, told.append _⟩
        have early := (List.getElem?_eq_some_iff.mp made).1
        simpa [Entry.tried?, List.getElem?_append_left early] using made
    · obtain ⟨rfl, -⟩ := List.cons.inj tail
      simp [Entry.tried?] at tried
    · obtain ⟨c, made, found, told⟩ := ihRest rfl
      refine ⟨c, ?_, ?_, told⟩
      · simpa [Entry.tried?, List.filterMap_cons, inner.tried, List.getElem?_append_right] using made
      · simpa [openSpans, openSpans_append, inner.openSpans_eq] using found

end

/-! ### The attempts are counted -/

theorem iterations_run {compare : Guard TypePair → TypeId → TypeId → Run}
    {attempts : Guard TypePair → TypeId → TypeId → List Attempt}
    (counted : ∀ g l r, (compare g l r).guard.iterations = min (g.iterations + (attempts g l r).length) Limits.ceiling)
    {g : Guard TypePair} (below : g.iterations ≤ Limits.ceiling) (i : Inquiry) :
    (i.run compare g).guard.iterations = min (g.iterations + (i.attempts compare attempts g).length) Limits.ceiling := by
  induction i generalizing g with
  | done | fail => simpa [Inquiry.run, Inquiry.attempts] using below
  | note event next ih => exact ih below
  | ask l r next ih =>
    have first := counted g l r
    simp only [Inquiry.run, Inquiry.attempts]
    cases found : (compare g l r).answer with
    | error fault => simpa using first
    | ok s =>
      have rest := ih s (g := (compare g l r).guard) (by omega)
      simp only [List.length_append]
      omega

theorem iterations_enclose (run : Run) (l r : TypeId) : (run.enclose l r).guard.iterations = run.guard.iterations := by
  unfold Run.enclose
  split <;> rfl

theorem iterations_compareWithin (room : Nat) (path : List (TypeId × TypeId)) (g : Guard TypePair) (l r : TypeId) :
    (env.compareWithin room g l r).guard.iterations =
      min (g.iterations + (env.attemptsWithin room path g l r).length) Limits.ceiling := by
  induction room generalizing path g l r with
  | zero => simp [compareWithin, guard_turnedAway, attemptsWithin, Guard.iterations_enter]
  | succ room ih =>
    have attempt := g.iterations_enter (.of l r)
    by_cases entered : (g.enter (.of l r)).1 = .entered
    · have inner := iterations_run (ih ((l, r) :: path)) (g := (g.enter (.of l r)).2) (by omega) (env.rule l r)
      rw [compareWithin_entered entered, iterations_enclose]
      simp only [attemptsWithin, entered, if_true, List.length_cons]
      omega
    · simpa [compareWithin_turnedAway entered, guard_turnedAway, attemptsWithin, entered] using attempt

/-! ### The trace of a query -/

theorem sound_first (limits : Limits) (l r : TypeId) : AttemptSound .univ limits ⟨[], .fresh limits, l, r⟩ :=
  ⟨trivial, trivial, rfl, rfl, rfl, .nil⟩

section
variable {l r : TypeId} {s : Selector} (answered : env.limitedSelector limits l r = .ok s)
include answered

theorem recounts_compare : env.Recounts limits [] (env.attempts limits l r) (env.compare limits l r).trace :=
  recounts_compareWithin rfl (sound_first limits l r) answered

/-- The outermost span is that of the query, unless it is refused at once. -/
theorem trace_compare :
    (∃ inside, (env.compare limits l r).trace = .opened l r :: inside ++ [.event (.computed s), .closed] ∧
      openSpans [] inside = some []) ∨
    ((env.compare limits l r).trace = [.event (.refused l r)] ∧ s = .bottom ∧
      (limits.maxDepth = 0 ∨ limits.maxIterations = 0)) := by
  have sound := sound_first limits l r
  by_cases entered : ((Guard.fresh limits).enter (TypePair.of l r)).1 = .entered
  · obtain ⟨room, deep⟩ : ∃ room, limits.maxDepth = room + 1 :=
      Nat.exists_eq_add_one.mpr (room_pos_of_entered entered)
    have run : env.compare limits l r =
        ((env.rule l r).run (env.compareWithin room) ((Guard.fresh limits).enter (.of l r)).2).enclose l r := by
      rw [← compareWithin_entered entered, ← deep]
      rfl
    rw [limitedSelector, run, answer_enclose] at answered
    have inner := recounts_rule (g := .fresh limits) (fun g' a b t room sound => recounts_compareWithin room sound) deep
      sound entered answered
    exact .inl ⟨_, by rw [run, trace_enclose_ok answered], inner.openSpans_eq []⟩
  · have run : env.compare limits l r = .turnedAway ((Guard.fresh limits).enter (.of l r)) l r :=
      compareWithin_turnedAway entered
    rw [limitedSelector, run, answer_turnedAway] at answered
    rw [run]
    rcases (Guard.fresh limits).enter_cases (TypePair.of l r) with
      ⟨many, result⟩ | ⟨-, old, -⟩ | ⟨-, -, deep, result⟩ | ⟨-, -, -, result⟩
    · rw [result] at answered ⊢
      refine .inr ⟨rfl, (Except.ok.inj answered).symm, .inr ?_⟩
      simp only [Guard.fresh, Guard.counted, Limits.ceiling] at many
      omega
    · simp [Guard.fresh] at old
    · rw [result] at answered ⊢
      exact .inr ⟨rfl, (Except.ok.inj answered).symm, .inl (Nat.le_zero.mp deep)⟩
    · simp [result] at entered

end

/-- What makes the trace of a query a faithful account of its run, where the query yields a selector. -/
structure FaithfulTrace (env : Environment) (limits : Limits) (l r : TypeId) (s : Selector) : Prop where
  /-- Spans are nested, and each of them ends. -/
  nested : openSpans [] (env.compare limits l r).trace = some []
  /-- At every point the spans that are open have different pairs, and there are no more than allowed. -/
  allows : ∀ before after, (env.compare limits l r).trace = before ++ after →
    ∃ spans, openSpans [] before = some spans ∧ limits.Allows spans
  /-- Every entry about an attempt tells of the attempt that was made there, while the same pairs were open. -/
  told : ∀ before entry after, (env.compare limits l r).trace = before ++ entry :: after → entry.tried?.isSome →
    ∃ a, (env.attempts limits l r)[(before.filterMap Entry.tried?).length]? = some a ∧
      openSpans [] before = some a.path ∧ env.ToldBy a after entry
  /-- The guard counted as many attempts as there are spans, assumed pairs and refused pairs, up to its ceiling. -/
  counted : (env.compare limits l r).guard.iterations = min ((env.compare limits l r).trace.countP Entry.isOpened +
    (env.compare limits l r).trace.countP Entry.isAssumed +
    (env.compare limits l r).trace.countP Entry.isRefused) Limits.ceiling
  /-- The outermost span ends with the selector of the query; without one the query was refused at once. -/
  outermost : (∃ inside, (env.compare limits l r).trace = .opened l r :: inside ++ [.event (.computed s), .closed] ∧
      openSpans [] inside = some []) ∨
    ((env.compare limits l r).trace = [.event (.refused l r)] ∧ s = .bottom ∧
      (limits.maxDepth = 0 ∨ limits.maxIterations = 0))
  /-- Some pair was refused exactly if the checked query reports its limits. -/
  refused : (∃ a b, .event (.refused a b) ∈ (env.compare limits l r).trace) ↔
    env.checkedSelector limits l r = .ok (.exceeded limits)

/-- The trace of every query that has an answer is a faithful account of its run. -/
theorem trace_faithful {l r : TypeId} {s : Selector} (answered : env.limitedSelector limits l r = .ok s) :
    env.FaithfulTrace limits l r s := by
  have recounts := recounts_compare answered
  refine ⟨recounts.openSpans_eq [], fun before after => ?_, fun before entry after => ?_, ?_, trace_compare answered, ?_⟩
  · exact recounts.allows ⟨List.nodup_nil, Nat.zero_le _⟩
  · exact recounts.told
  · have total : (env.compare limits l r).guard.iterations = min (0 + (env.attempts limits l r).length) Limits.ceiling :=
      iterations_compareWithin _ [] _ l r
    have tried := congrArg List.length recounts.tried
    rw [List.length_map, Entry.length_tried] at tried
    rw [total, tried, Nat.zero_add]
  · rw [recounts.refused_iff, ← exceeded_compare]
    constructor
    · exact checkedSelector_eq_exceeded answered
    · intro reported
      by_contra kept
      have success := checkedSelector_eq_selector_iff.mpr ⟨answered, Bool.not_eq_true _ ▸ kept⟩
      simp [success] at reported

/-- Comparing copies of a list with six attempts allowed: the lists are assumed inside, and the seventh attempt is
    refused. -/
theorem copiedLists_trace :
    copiedLists.limitedSelector ⟨5, 6⟩ ⟨100⟩ ⟨103⟩ = .ok (.record [.top, .union [.top, .bottom]]) ∧
      copiedLists.FaithfulTrace ⟨5, 6⟩ ⟨100⟩ ⟨103⟩ (.record [.top, .union [.top, .bottom]]) ∧
      .event (.assumed ⟨100⟩ ⟨103⟩) ∈ (copiedLists.compare ⟨5, 6⟩ ⟨100⟩ ⟨103⟩).trace ∧
      (copiedLists.compare ⟨5, 6⟩ ⟨100⟩ ⟨103⟩).guard.iterations = 5 + 1 + 1 ∧
      copiedLists.checkedSelector ⟨5, 6⟩ ⟨100⟩ ⟨103⟩ = .ok (.exceeded ⟨5, 6⟩) := by
  have answered : copiedLists.limitedSelector ⟨5, 6⟩ ⟨100⟩ ⟨103⟩ = .ok (.record [.top, .union [.top, .bottom]]) := by
    decide +kernel
  have faithful := trace_faithful answered
  exact ⟨answered, faithful, by decide +kernel, faithful.counted.trans (by decide +kernel),
    faithful.refused.mp ⟨.null, ⟨104⟩, by decide +kernel⟩⟩

end Environment

end Narrowing
