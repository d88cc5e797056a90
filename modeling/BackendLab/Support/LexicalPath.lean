import BackendLab.Support.CString
import Mathlib.Tactic.Cases

/-!
# Lexical normalisation of paths

A relative path is read component by component: `.` is dropped and `..` drops
the name before it, or climbs above the start when there is none.  Whether the
normal form lies below a given directory is decided by one pass that counts
the depth.
-/

namespace BackendLab.Support

inductive Component (α : Type*) where
  | current
  | parent
  | name (a : α)
  deriving DecidableEq, Repr

/-- A normal form: climb `ups` levels, then descend through the names, of which
the innermost comes first. -/
structure NormalPath (α : Type*) where
  ups : ℕ
  names : List α
  deriving DecidableEq, Repr

namespace NormalPath

variable {α : Type*}

def step : NormalPath α → Component α → NormalPath α
  | n, .current => n
  | n, .name a => ⟨n.ups, a :: n.names⟩
  | ⟨ups, []⟩, .parent => ⟨ups + 1, []⟩
  | ⟨ups, _ :: names⟩, .parent => ⟨ups, names⟩

def walk (n : NormalPath α) (cs : List (Component α)) : NormalPath α :=
  cs.foldl step n

theorem walk_append (n : NormalPath α) (cs ds : List (Component α)) :
    n.walk (cs ++ ds) = (n.walk cs).walk ds :=
  List.foldl_append

/-- The path is the directory `root` or lies below it. -/
def IsBelow (root : List α) (n : NormalPath α) : Prop :=
  n.ups = 0 ∧ root <+: n.names.reverse

theorem ups_le_step (n : NormalPath α) (c : Component α) :
    n.ups ≤ (n.step c).ups := by
  obtain ⟨ups, names⟩ := n
  cases c with
  | current => exact le_rfl
  | name a => exact le_rfl
  | parent =>
      cases names with
      | nil => exact Nat.le_succ ups
      | cons a names => exact le_rfl

theorem ups_le_walk (n : NormalPath α) (cs : List (Component α)) :
    n.ups ≤ (n.walk cs).ups := by
  induction cs generalizing n with
  | nil => exact le_rfl
  | cons c cs ih => exact (n.ups_le_step c).trans (ih (n.step c))

theorem singleton_prefix_reverse_iff {r : α} {names : List α} :
    [r] <+: names.reverse ↔ names.getLast? = some r := by
  rw [← List.head?_reverse]
  cases names.reverse with
  | nil => simp
  | cons a l =>
      simp only [List.cons_prefix_cons, List.nil_prefix, and_true,
        List.head?_cons, Option.some.injEq]
      exact eq_comm

/-- Counts the depth along a path: `depth` names lie between the start and the
present directory, and `inside` says whether the outermost of them is `r`.
Climbing above the start fails for good. -/
def staysBelow [DecidableEq α] (r : α) :
    ℕ → Bool → List (Component α) → Bool
  | depth, inside, [] => 0 < depth ∧ inside
  | depth, inside, .current :: cs => staysBelow r depth inside cs
  | 0, _, .name a :: cs => staysBelow r 1 (a = r) cs
  | depth + 1, inside, .name _ :: cs => staysBelow r (depth + 2) inside cs
  | 0, _, .parent :: _ => false
  | depth + 1, inside, .parent :: cs => staysBelow r depth inside cs

/-- The counting pass decides whether the normal form lies below `r`. -/
theorem walk_isBelow_iff [DecidableEq α] (r : α) (names : List α)
    (cs : List (Component α)) (inside : Bool)
    (hinside : names ≠ [] → (inside = true ↔ names.getLast? = some r)) :
    (walk ⟨0, names⟩ cs).IsBelow [r] ↔
      staysBelow r names.length inside cs = true := by
  induction cs generalizing names inside with
  | nil =>
      rw [walk, List.foldl_nil, IsBelow, singleton_prefix_reverse_iff]
      cases names with
      | nil => simp [staysBelow]
      | cons a names => simp [staysBelow, hinside (by simp)]
  | cons c cs ih =>
      cases c with
      | current => exact ih names inside hinside
      | name a =>
          have hnext := ih (a :: names)
          cases names with
          | nil =>
              exact hnext (decide (a = r)) (by simp)
          | cons b names =>
              refine hnext inside fun _ => ?_
              rw [hinside (by simp), List.getLast?_cons_cons]
      | parent =>
          cases names with
          | nil =>
              have hclimb : 1 ≤ (walk (⟨1, []⟩ : NormalPath α) cs).ups :=
                ups_le_walk ⟨1, []⟩ cs
              constructor
              · intro hbelow
                have hups : (walk (⟨1, []⟩ : NormalPath α) cs).ups = 0 :=
                  hbelow.1
                rw [hups] at hclimb
                exact absurd hclimb (by decide)
              · intro h
                cases h
          | cons b names =>
              refine ih names inside fun hne => ?_
              rw [hinside (by simp)]
              cases names with
              | nil => exact absurd rfl hne
              | cons a names => rw [List.getLast?_cons_cons]

end NormalPath

/-! ## Paths as byte strings -/

/-- One piece of a path between two slashes; empty pieces do not count. -/
def toComponent (piece : Bytes) : Option (Component Bytes) :=
  if piece = [] then none
  else if piece = ascii "." then some .current
  else if piece = ascii ".." then some .parent
  else some (.name piece)

def components (path : Bytes) : List (Component Bytes) :=
  (path.splitOn 47).filterMap toComponent

theorem components_append_slash (a t : Bytes) :
    components (a ++ 47 :: t) = components a ++ components t := by
  unfold components
  rw [List.splitOn_eq_splitOnP, List.splitOnP_append_cons a t (by rfl),
    List.filterMap_append]
  rfl

/-- A continuation that is empty or starts with a slash adds its own
components. -/
theorem components_append {a t : Bytes} (ht : t = [] ∨ t.head? = some 47) :
    components (a ++ t) = components a ++ components t := by
  rcases ht with rfl | ht
  · rw [List.append_nil, show components [] = [] from rfl, List.append_nil]
  · cases t with
    | nil => simp at ht
    | cons b t =>
        obtain rfl : b = 47 := by simpa using ht
        have hslash := components_append_slash [] t
        rw [List.nil_append, show components [] = [] from rfl,
          List.nil_append] at hslash
        rw [components_append_slash, hslash]

end BackendLab.Support
