import CurveSearch.Proofs.Walk

/-!
# Walks that go on

A walk may stop after some points and go on later, one step past the last of them. What the two
walks return together is what one longer walk returns, and both call the search on the same windows
in the same order. To speak of calls, the search of a walk is allowed to act, and then to record the
windows that it is given.
-/

namespace CurveSearch

/-- A walk whose search may act besides returning a point. -/
def walkM {m : Type → Type} [Monad m] (next : Window → m Point) : ℕ → Window → m Walk
  | 0, _ => pure ⟨[], none⟩
  | count + 1, w => do
      let p ← next w
      if p.isFound then
        let rest ← walkM next count (w.after p.abscissa)
        pure ⟨p :: rest.points, rest.miss⟩
      else pure ⟨[], some p⟩

/-- A search that records the windows it is called on, in order. -/
def recorded (next : Window → Point) (w : Window) : StateM (List Window) Point :=
  fun calls ↦ (next w, calls ++ [w])

/-- The window in which a search goes on after some points. -/
def Window.past (w : Window) (points : List Point) : Window :=
  match points.getLast? with
  | some p => w.after p.abscissa
  | none => w

def Walk.followedBy (first second : Walk) : Walk :=
  match first.miss with
  | some _ => first
  | none => ⟨first.points ++ second.points, second.miss⟩

variable (next : Window → Point) (count : ℕ) (w : Window)

/-- A search that only returns a point makes the same walk. -/
theorem walkM_pure {m : Type → Type} [Monad m] [LawfulMonad m] :
    walkM (fun v ↦ pure (f := m) (next v)) count w = pure (walk next count w) := by
  induction count generalizing w with
  | zero => rfl
  | succ count ih =>
      rw [walkM, walk, pure_bind]
      split_ifs with hfound
      · rw [ih, pure_bind]
      · rfl

theorem run_walkM_recorded (calls : List Window) :
    (walkM (recorded next) count w).run calls =
      (walk next count w, calls ++ searched next count w) := by
  induction count generalizing w calls with
  | zero =>
      rw [searched, List.append_nil]
      rfl
  | succ count ih =>
      have hbind {α β : Type} (x : StateM (List Window) α) (f : α → StateM (List Window) β) :
          (x >>= f).run calls = (f (x.run calls).1).run (x.run calls).2 := rfl
      rw [walkM, walk, searched, hbind]
      change StateT.run (if (next w).isFound then _ else _) (calls ++ [w]) = _
      simp only
      split_ifs with hfound
      · rw [StateT.run_bind, ih, List.append_assoc]
        rfl
      · rfl

/-- After the first window, each window of a walk starts one step past a point, in the order of the
points. The window past the last point is not searched if there are enough points. -/
theorem searched_eq_take :
    searched next count w =
      (w :: (walk next count w).points.map fun p ↦ w.after p.abscissa).take count := by
  induction count generalizing w with
  | zero => rfl
  | succ count ih =>
      rw [searched, walk, List.take_succ_cons]
      simp only
      split_ifs with hfound
      · rw [ih, List.map_cons]
        rfl
      · simp

theorem miss_walk_isSome :
    (walk next count w).miss.isSome ↔ (walk next count w).points.length < count := by
  induction count generalizing w with
  | zero => simp [walk]
  | succ count ih =>
      rw [walk]
      simp only
      split_ifs with hfound
      · simpa using ih (w.after (next w).abscissa)
      · simp

theorem all_isFound_points_walk : (walk next count w).points.all Point.isFound := by
  rw [points_walk, List.all_eq_true]
  intro p hp
  exact (List.mem_filter.mp hp).2

theorem all_not_isFound_miss_walk : (walk next count w).miss.all fun p ↦ !p.isFound := by
  induction count generalizing w with
  | zero => rfl
  | succ count ih =>
      rw [walk]
      simp only
      split_ifs with hfound
      · exact ih _
      · simpa using hfound

theorem Window.past_cons (w : Window) (p : Point) (points : List Point) :
    w.past (p :: points) = (w.after p.abscissa).past points := by
  unfold past
  cases points with
  | nil => rfl
  | cons q points =>
      rw [List.getLast?_cons_cons]
      rfl

theorem Walk.followedBy_cons (p : Point) (first second : Walk) :
    Walk.followedBy ⟨p :: first.points, first.miss⟩ second =
      ⟨p :: (first.followedBy second).points, (first.followedBy second).miss⟩ := by
  obtain ⟨points, miss⟩ := first
  cases miss <;> rfl

theorem walk_add_eq (m n : ℕ) :
    walk next (m + n) w =
      (walk next m w).followedBy (walk next n (w.past (walk next m w).points)) := by
  induction m generalizing w with
  | zero =>
      rw [Nat.zero_add]
      rfl
  | succ m ih =>
      rw [Nat.succ_add, walk, walk]
      simp only
      split_ifs with hfound
      · rw [ih, Window.past_cons, Walk.followedBy_cons]
      · rfl

/-- A walk of `m + n` points is a walk of `m` points followed by one of `n` points from where the
first one ended, unless the first one ends with a miss and is complete. All points of a walk are
found; it ends with a miss, which is not found, exactly if there are not enough points; and it calls
its search on the first window and then, as long as points are wanted, one step past each point. -/
theorem walk_add (m n : ℕ) :
    walk next (m + n) w =
      (walk next m w).followedBy (walk next n (w.past (walk next m w).points)) ∧
    (walk next m w).points.all Point.isFound ∧
    ((walk next m w).miss.isSome ↔ (walk next m w).points.length < m) ∧
    ((walk next m w).miss.all fun p ↦ !p.isFound) ∧
    (walkM (recorded next) m w).run [] = (walk next m w,
      (w :: (walk next m w).points.map fun p ↦ w.after p.abscissa).take m) := by
  refine ⟨walk_add_eq next w m n, all_isFound_points_walk next m w, miss_walk_isSome next m w,
    all_not_isFound_miss_walk next m w, ?_⟩
  rw [run_walkM_recorded, List.nil_append, searched_eq_take]

end CurveSearch
