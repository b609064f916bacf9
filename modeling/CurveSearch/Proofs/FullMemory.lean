import CurveSearch.Proofs.Flat
import Mathlib.Data.List.DropRight

/-!
# Searches that forget nothing

A scan keeps a bounded part of its samples, decides on candidates while it goes, and stops early. A
search that forgets nothing collects all samples of the window first. It shows the detector every
prefix of the list as a whole, takes the first candidate that stands after refinement and snapping,
and judges the whole list if there is none. Both return the same point: detectors look back at three
samples, the history keeps these and the tail, and its range is the one of the whole list.
-/

namespace CurveSearch

variable {σ : Type}

/-! ## The search with the whole list -/

/-- What a detector says to the latest sample when it is shown all samples so far, latest first, and
its state then. -/
def Detector.shown (detector : Detector σ) (tol : Tolerances) : List Sample → Option Candidate × σ
  | [] => (none, detector.start)
  | s :: earlier => detector.detect tol (s :: earlier) (shown detector tol earlier).2

namespace FullMemory

/-- The point that a list of samples leads to at its last one, if it is accepted. -/
def point? (detector : Detector σ) (f : Graph) (w : Window) (tol : Tolerances) (l : List Sample) :
    Option Point :=
  ((detector.shown tol l.reverse).1.map fun c ↦ Origin.snap f w tol (c.refine f tol)).filter
    (detector.accepts tol)

/-- The first accepted point that a prefix of a list of samples leads to. -/
def first? (detector : Detector σ) (f : Graph) (w : Window) (tol : Tolerances) (l : List Sample) :
    Option Point :=
  l.inits.findSome? (point? detector f w tol)

/-- Whether a list of samples fills the tail, and the tail is level and does not rise or fall faster
than the tolerance per unit. -/
def isSettled (tol : Tolerances) (l : List Sample) : Bool :=
  let length := max tol.tailWindow 3
  let tail := l.rtake length
  let spread := Samples.highest tail - Samples.lowest tail
  length ≤ l.length && spread < tol.eps &&
    match tail.head?, tail.getLast? with
    | some first, some last => spread / (last.x - first.x) < tol.eps
    | _, _ => false

def verdict (tol : Tolerances) (l : List Sample) : Verdict :=
  match l.getLast? with
  | none => .tooFewSamples
  | some last =>
      if l.length < 2 then .tooFewSamples
      else if Samples.highest l - Samples.lowest l < tol.eps then .flat last.y
      else if isSettled tol l then .flat last.y
      else .unsettled

def root (f : Graph) (w : Window) (tol : Tolerances) (l : List Sample) : Point :=
  match first? Detector.crossing f w tol l with
  | some p => ⟨p.abscissa, 0⟩
  | none => .unlocated 0

def extremum (kind : Extremum) (f : Graph) (w : Window) (tol : Tolerances) (l : List Sample) :
    Point :=
  match first? (Detector.turn kind) f w tol l with
  | some p => p
  | none => (verdict tol l).point

end FullMemory

/-! ## The verdict -/

namespace History

variable {h : History} {tol : Tolerances} {tailWindow : ℕ} {l : List Sample}

theorem spreadOf_reverse (l : List Sample) :
    spreadOf l.reverse = Samples.highest l - Samples.lowest l := by
  rw [spreadOf, List.foldr_reverse, List.foldr_reverse]
  rfl

namespace Summarizes

theorem fullTail?_eq (hl : h.Summarizes tailWindow l) :
    h.fullTail? = if max tailWindow 3 ≤ l.length then
      some (l.rtake (max tailWindow 3)).reverse else none := by
  rw [fullTail?, hl.capacity_eq, hl.count_eq, hl.tail_eq, hl.capacity_eq,
    List.rtake_eq_reverse_take_reverse, List.reverse_reverse]

theorem isSettled_eq (hl : h.Summarizes tol.tailWindow l) :
    Verdict.isSettled h tol = FullMemory.isSettled tol l := by
  unfold Verdict.isSettled FullMemory.isSettled tailSpread? tailSlope?
  rw [hl.fullTail?_eq]
  by_cases hfull : max tol.tailWindow 3 ≤ l.length
  · rw [if_pos hfull]
    simp only [hfull, Option.map_some, Option.any_some, Option.bind_eq_bind, Option.bind_some,
      spreadOf_reverse, List.head?_reverse, List.getLast?_reverse]
    cases (l.rtake (max tol.tailWindow 3)).head? <;>
      cases (l.rtake (max tol.tailWindow 3)).getLast? <;> simp
  · simp [hfull]

theorem verdict_eq (hl : h.Summarizes tol.tailWindow l) :
    Verdict.ofHistory h tol = FullMemory.verdict tol l := by
  rw [Verdict.ofHistory, FullMemory.verdict, hl.latest?_eq]
  cases l.getLast? with
  | none => rfl
  | some last => simp only [spread, hl.count_eq, hl.high_eq, hl.low_eq, hl.isSettled_eq]

end Summarizes

end History

/-! ## What detectors look at -/

def Detector.LooksAtThree (detector : Detector σ) : Prop :=
  ∀ tol l state, detector.detect tol (l.take 3) state = detector.detect tol l state

namespace Detector

theorem looksAtThree_crossing : crossing.LooksAtThree := by
  intro tol l state
  match l with
  | [] | [_] | [_, _] | _ :: _ :: _ :: _ => rfl

theorem looksAtThree_turn (kind : Extremum) : (turn kind).LooksAtThree := by
  intro tol l state
  match l, state with
  | [], _ | [_], _ | [_, _], _ => rfl
  | _ :: _ :: _ :: _, .fresh | _ :: _ :: _ :: _, .low _ | _ :: _ :: _ :: _, .high _ _ => rfl

theorem LooksAtThree.detect_congr {detector : Detector σ} (h : detector.LooksAtThree)
    {tol : Tolerances} {l l' : List Sample} (htake : l.take 3 = l'.take 3) (state : σ) :
    detector.detect tol l state = detector.detect tol l' state := by
  rw [← h tol l, htake, h tol l']

end Detector

namespace Scan

variable {detector : Detector σ} {f : Graph} {w : Window} {tol : Tolerances} {i n : ℕ}

theorem detected_ofSamples (h : detector.LooksAtThree) (l : List Sample) (s : Sample)
    (hstate : (State.ofSamples detector tol l).detector = (detector.shown tol l.reverse).2) :
    (State.ofSamples detector tol l).detected detector tol s.x s.y =
      detector.shown tol (l ++ [s]).reverse := by
  have hpush := (summarizes_ofSamples detector tol l).push s
  rw [State.detected, State.pushed, hstate,
    h.detect_congr (hpush.take_recent hpush.three_le_capacity), List.reverse_append,
    List.reverse_singleton]
  rfl

theorem detector_ofSamples (h : detector.LooksAtThree) (tol : Tolerances) (l : List Sample) :
    (State.ofSamples detector tol l).detector = (detector.shown tol l.reverse).2 := by
  induction l using List.reverseRecOn with
  | nil => rfl
  | append_singleton l s ih =>
      rw [State.ofSamples_concat, ← detected_ofSamples h l s ih]
      rfl

end Scan

namespace FullMemory

theorem first?_concat (detector : Detector σ) (f : Graph) (w : Window) (tol : Tolerances)
    (l : List Sample) (s : Sample) :
    first? detector f w tol (l ++ [s]) =
      (first? detector f w tol l).or (point? detector f w tol (l ++ [s])) := by
  rw [first?, List.inits_append, List.findSome?_append]
  simp [first?]

end FullMemory

/-! ## The scan and the list of its samples -/

namespace Scan

variable {detector : Detector σ} {f : Graph} {w : Window} {tol : Tolerances} {i n : ℕ}

theorem visit_ofSamples (h : detector.LooksAtThree) (w : Window) (tol : Tolerances)
    (l : List Sample) {x y : Float} (hf : f x = some y) :
    visit detector f w tol (.ofSamples detector tol l) x =
      match FullMemory.point? detector f w tol (l ++ [⟨x, y⟩]) with
      | some p => .inl p
      | none => .inr (.ofSamples detector tol (l ++ [⟨x, y⟩])) := by
  have hdetected := detected_ofSamples h l ⟨x, y⟩ (detector_ofSamples h tol l)
  have hnext : State.ofSamples detector tol (l ++ [⟨x, y⟩]) =
      ⟨(State.ofSamples detector tol l).pushed x y,
        ((State.ofSamples detector tol l).detected detector tol x y).2⟩ :=
    State.ofSamples_concat detector tol l ⟨x, y⟩
  rw [visit_of_eq_some hf, ← hnext, FullMemory.point?, ← hdetected]
  cases ((State.ofSamples detector tol l).detected detector tol x y).1 with
  | none => rfl
  | some c =>
      simp only [Option.map_some, Option.filter_some]
      split_ifs <;> rfl

/-- Up to any cursor a scan has found the first accepted point of the samples so far, or there is none
and it goes on with what it keeps of them. -/
theorem found_or_reached (h : detector.LooksAtThree) (hvisits : ∀ j, 1 ≤ j → j ≤ i → w.Visits j) :
    (∃ p, scan detector f w tol = .found p ∧
      FullMemory.first? detector f w tol (w.samples f i) = some p) ∨
    Reached detector f w tol (i + 1) (.ofSamples detector tol (w.samples f i)) ∧
      FullMemory.first? detector f w tol (w.samples f i) = none := by
  induction i with
  | zero => exact .inr ⟨.start, rfl⟩
  | succ i ih =>
      have hi := hvisits (i + 1) (by omega) le_rfl
      cases hf : f (w.cursor (i + 1)) with
      | none =>
          rw [Window.samples_succ_of_none hf]
          rcases ih fun j hj hle ↦ hvisits j hj (by omega) with hfound | ⟨hreached, hnone⟩
          · exact .inl hfound
          · exact .inr ⟨hreached.step hi (visit_of_eq_none hf), hnone⟩
      | some y =>
          rw [Window.samples_succ_of_some hf, FullMemory.first?_concat]
          rcases ih fun j hj hle ↦ hvisits j hj (by omega) with
            ⟨p, hscan, hfirst⟩ | ⟨hreached, hnone⟩
          · exact .inl ⟨p, hscan, by rw [hfirst, Option.some_or]⟩
          · have hvisit := visit_ofSamples h w tol (w.samples f i) hf
            rw [hnone, Option.none_or]
            cases hpoint : FullMemory.point? detector f w tol
                (w.samples f i ++ [⟨w.cursor (i + 1), y⟩]) with
            | some p =>
                rw [hpoint] at hvisit
                exact .inl ⟨p, hreached.scan_eq_found hi hvisit, rfl⟩
            | none =>
                rw [hpoint] at hvisit
                exact .inr ⟨hreached.step hi hvisit, rfl⟩

theorem scan_of_endsAfter (h : detector.LooksAtThree) (hend : w.EndsAfter n) :
    scan detector f w tol =
      match FullMemory.first? detector f w tol (w.samples f n) with
      | some p => .found p
      | none => .exhausted (State.ofSamples detector tol (w.samples f n)).history := by
  rcases found_or_reached h hend.visits with ⟨p, hscan, hfirst⟩ | ⟨hreached, hnone⟩
  · rw [hscan, hfirst]
  · rw [hreached.scan_eq, run_of_not_visits hend.ends, hnone]

end Scan

/-- A search of a window returns what it would return if it collected all samples of the window first
and forgot none of them. -/
theorem Search.results_eq_fullMemory (f : Graph) {w : Window} (tol : Tolerances) {n : ℕ}
    (hw : w.isValid) (hend : w.EndsAfter n) :
    root f w tol = FullMemory.root f w tol (w.samples f n) ∧
      ∀ kind, extremum kind f w tol = FullMemory.extremum kind f w tol (w.samples f n) := by
  constructor
  · rw [root, if_pos hw, Scan.scan_of_endsAfter Detector.looksAtThree_crossing hend,
      FullMemory.root]
    cases FullMemory.first? Detector.crossing f w tol (w.samples f n) <;> rfl
  · intro kind
    have hverdict := (Scan.summarizes_ofSamples (Detector.turn kind) tol (w.samples f n)).verdict_eq
    rw [extremum, if_pos hw, Scan.scan_of_endsAfter (Detector.looksAtThree_turn kind) hend,
      FullMemory.extremum, ← hverdict]
    cases FullMemory.first? (Detector.turn kind) f w tol (w.samples f n) <;> rfl

/-! ## A graph that settles -/

def Graph.settling : Graph := fun x ↦ if x == 3 then none else some (if x < 2 then 5 else 1)

def Window.toEight : Window := ⟨0, 1, 8⟩

theorem Window.endsAfter_toEight : toEight.EndsAfter 8 where
  visits := by
    intro i hone height
    interval_cases i <;> exact ⟨by norm_num, by decide +kernel⟩
  ends := fun h ↦ h.2 (by decide +kernel)

/-- Where the history keeps three of seven samples, the verdict is still the one on all of them: the
graph is not flat, and it has settled. -/
theorem Search.results_eq_fullMemory_settling :
    (Window.toEight.isValid ∧ Window.toEight.EndsAfter 8) ∧
    (Window.toEight.samples .settling 8).length = 7 ∧
    root .settling .toEight { tailWindow := 2 } = .unlocated 0 ∧
    ∀ kind, extremum kind .settling .toEight { tailWindow := 2 } = .unlocated 1 := by
  have hw : Window.toEight.isValid := by decide +kernel
  obtain ⟨hroot, hextremum⟩ := results_eq_fullMemory .settling { tailWindow := 2 } hw
    Window.endsAfter_toEight
  refine ⟨⟨hw, Window.endsAfter_toEight⟩, by decide +kernel, ?_, fun kind ↦ ?_⟩
  · rw [hroot]
    decide +kernel
  · rw [hextremum]
    cases kind <;> decide +kernel

end CurveSearch
