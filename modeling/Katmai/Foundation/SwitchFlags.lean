import Mathlib.Data.List.Basic

/-!
# A C `switch` and its execution by two flags

The body of a C `switch` is a list of labels, statements and breaks. Control jumps behind the label
that matches the value, or else behind `default`, or else past the body; from there the statements
are executed up to the first `break`, labels being passed over (`selected`).

A reader that goes through the body only once, from the front, cannot jump. It keeps two flags
instead: whether statements are executed at present, and whether a label has matched
(`letThrough`). The two agree when the labels are pairwise different and `default` is the last of
them (`letThrough_eq_selected`).
-/

set_option autoImplicit false
set_option relaxedAutoImplicit false

namespace Katmai.Foundation

/-- An item of the body of a `switch`. -/
inductive SwitchItem (ι σ : Type*) where
  | label (v : ι)
  | default
  | stmt (s : σ)
  | brk

variable {ι σ : Type*} [DecidableEq ι]

/-! ### The C statement -/

/-- The body behind the label of a value. -/
def behindLabel (v : ι) : List (SwitchItem ι σ) → Option (List (SwitchItem ι σ))
  | [] => none
  | .label w :: rest => if w = v then some rest else behindLabel v rest
  | _ :: rest => behindLabel v rest

/-- The body behind `default`. -/
def behindDefault : List (SwitchItem ι σ) → Option (List (SwitchItem ι σ))
  | [] => none
  | .default :: rest => some rest
  | _ :: rest => behindDefault rest

/-- The statements up to the first `break`. -/
def untilBreak : List (SwitchItem ι σ) → List σ
  | [] => []
  | .stmt s :: rest => s :: untilBreak rest
  | .brk :: _ => []
  | _ :: rest => untilBreak rest

/-- The statements that a `switch` on a value executes. -/
def selected (v : ι) (items : List (SwitchItem ι σ)) : List σ :=
  match (behindLabel v items).or (behindDefault items) with
  | some rest => untilBreak rest
  | none => []

/-- The values of the labels. -/
def labels : List (SwitchItem ι σ) → List ι
  | [] => []
  | .label v :: rest => v :: labels rest
  | _ :: rest => labels rest

/-- No label stands behind `default`, and there is no second `default`. -/
def DefaultLast : List (SwitchItem ι σ) → Prop
  | [] => True
  | .default :: rest => labels rest = [] ∧ behindDefault rest = none
  | _ :: rest => DefaultLast rest

/-! ### The two flags -/

/-- The statements executed by a reader with the two flags `on` (statements are executed) and
`matched` (a label has matched). -/
def letThrough (v : ι) : Bool → Bool → List (SwitchItem ι σ) → List σ
  | _, _, [] => []
  | on, matched, .label w :: rest =>
    if w = v then letThrough v true true rest else letThrough v on matched rest
  | on, matched, .default :: rest => letThrough v (on || !matched) matched rest
  | on, matched, .stmt s :: rest => (if on then [s] else []) ++ letThrough v on matched rest
  | _, matched, .brk :: rest => letThrough v false matched rest

variable {v : ι} {items : List (SwitchItem ι σ)}

omit [DecidableEq ι] in
@[simp] theorem labels_append (first second : List (SwitchItem ι σ)) :
    labels (first ++ second) = labels first ++ labels second := by
  induction first with
  | nil => rfl
  | cons item rest ih => cases item <;> simp [labels, ih]

omit [DecidableEq ι] in
@[simp] theorem labels_map_label {α : Type*} (f : α → ι) (values : List α) :
    labels (values.map fun a ↦ (.label (f a) : SwitchItem ι σ)) = values.map f := by
  induction values with
  | nil => rfl
  | cons a rest ih => simp [labels, ih]

omit [DecidableEq ι] in
@[simp] theorem labels_map_stmt (stmts : List σ) :
    labels (stmts.map (.stmt : σ → SwitchItem ι σ)) = [] := by
  induction stmts with
  | nil => rfl
  | cons s rest ih => simp [labels, ih]

omit [DecidableEq ι] in
theorem behindDefault_eq_none (hfree : .default ∉ items) : behindDefault items = none := by
  induction items with
  | nil => rfl
  | cons item rest ih =>
    rw [List.mem_cons, not_or] at hfree
    cases item with
    | label w => exact ih hfree.2
    | default => exact absurd rfl hfree.1
    | stmt s => exact ih hfree.2
    | brk => exact ih hfree.2

omit [DecidableEq ι] in
/-- Items without a `default` in front change nothing. -/
theorem defaultLast_append {first : List (SwitchItem ι σ)} (hfree : .default ∉ first)
    (hlast : DefaultLast items) : DefaultLast (first ++ items) := by
  induction first with
  | nil => exact hlast
  | cons item rest ih =>
    rw [List.mem_cons, not_or] at hfree
    cases item with
    | label w => exact ih hfree.2
    | default => exact absurd rfl hfree.1
    | stmt s => exact ih hfree.2
    | brk => exact ih hfree.2

theorem behindLabel_eq_none (hlabels : labels items = []) : behindLabel v items = none := by
  induction items with
  | nil => rfl
  | cons item rest ih =>
    cases item with
    | label w => simp [labels] at hlabels
    | default => exact ih hlabels
    | stmt s => exact ih hlabels
    | brk => exact ih hlabels

/-- Behind the last label that could change them, the flags let through the statements up to the
next `break`, or nothing. -/
theorem letThrough_of_settled {on matched : Bool} (hlabels : v ∉ labels items)
    (hdefault : matched = true ∨ behindDefault items = none) :
    letThrough v on matched items = if on then untilBreak items else [] := by
  induction items generalizing on with
  | nil => simp [letThrough, untilBreak]
  | cons item rest ih =>
    cases item with
    | label w =>
      rw [labels, List.mem_cons, not_or] at hlabels
      rw [letThrough, if_neg (Ne.symm hlabels.1), untilBreak]
      · exact ih hlabels.2 hdefault
      · simp
      · simp
    | default =>
      obtain rfl : matched = true := hdefault.resolve_right (by simp [behindDefault])
      rw [letThrough, ih hlabels (Or.inl rfl), untilBreak]
      · simp
      · simp
      · simp
    | stmt s =>
      rw [letThrough, ih hlabels hdefault, untilBreak]
      cases on <;> simp
    | brk =>
      rw [letThrough, ih hlabels hdefault, untilBreak]
      simp

/-- With pairwise different labels and `default` behind all of them, the two flags execute what the
C statement executes. -/
theorem letThrough_eq_selected (hlabels : (labels items).Nodup) (hdefault : DefaultLast items) :
    letThrough v false false items = selected v items := by
  induction items with
  | nil => rfl
  | cons item rest ih =>
    cases item with
    | label w =>
      rw [labels, List.nodup_cons] at hlabels
      by_cases hw : w = v
      · subst hw
        simp [letThrough, selected, behindLabel, letThrough_of_settled hlabels.1]
      · rw [letThrough, if_neg hw, ih hlabels.2 hdefault]
        simp [selected, behindLabel, behindDefault, hw]
    | default =>
      have hfree : v ∉ labels rest := by simp [hdefault.1]
      simp [letThrough, letThrough_of_settled hfree (Or.inr hdefault.2), selected, behindLabel,
        behindDefault, behindLabel_eq_none hdefault.1]
    | stmt s =>
      rw [letThrough, ih hlabels hdefault]
      simp [selected, behindLabel, behindDefault]
    | brk =>
      rw [letThrough, ih hlabels hdefault]
      simp [selected, behindLabel, behindDefault]

end Katmai.Foundation
