import Mathlib
import Calculator.Keypad

/-! Runs of the keypad.

Labels are pressed as the keys that carry them, and a label that no key carries changes
nothing (`fst_run`, `trace_filter`). All keys but `=` and `C` write their label at the end
of the display, so what is displayed is what the last `=` or `C` left there and all that
was written since (`exists_base`). A run succeeds if every single press does
(`snd_run_iff`). -/
namespace Calculator

/-! ### Keys -/

namespace Key

/-- The keys of labels, without the labels that no key carries. -/
def ofLabels (labels : List String) : List Key := labels.filterMap ofLabel?

/-- All keys but `=` and `C` write their label at the end of the display. -/
def Writes : Key → Prop
  | .equals | .clear => False
  | _ => True

/-- What keys write. -/
def written (keys : List Key) : List Char := keys.flatMap fun key => key.label.toList

/-- A key is known by its own label, and the square root by its keyword as well. -/
theorem ofLabel?_eq_some_iff {label : String} {key : Key} :
    ofLabel? label = some key ↔
      label = key.label ∨ (label = UnaryFunction.sqrt.name ∧ key = .function .sqrt) := by
  constructor
  · intro h
    unfold ofLabel? at h
    split at h
    · next hname =>
      cases h
      exact .inr ⟨hname, rfl⟩
    · have hlabel := List.find?_some (p := fun key : Key => key.label == label) h
      exact .inl (eq_of_beq hlabel).symm
  · rintro (rfl | ⟨rfl, rfl⟩)
    · exact ofLabel?_label key
    · rfl

theorem ofLabel?_eq_equals_iff {label : String} : ofLabel? label = some .equals ↔ label = "=" := by
  rw [ofLabel?_eq_some_iff]
  simp [Key.label]

theorem ofLabel?_eq_clear_iff {label : String} : ofLabel? label = some .clear ↔ label = "C" := by
  rw [ofLabel?_eq_some_iff]
  simp [Key.label]

end Key

namespace Keypad

/-! ### Pressing keys -/

/-- The keypad after keys, one after the other. -/
def pressAll (keypad : Keypad) (keys : List Key) : Keypad :=
  keys.foldl (fun keypad key => (keypad.press key).1) keypad

theorem pressAll_append (keypad : Keypad) (keys more : List Key) :
    keypad.pressAll (keys ++ more) = (keypad.pressAll keys).pressAll more := List.foldl_append

theorem press_of_writes (keypad : Keypad) {key : Key} (h : key.Writes) :
    keypad.press key = (⟨keypad.display ++ key.label⟩, .edited) := by
  cases key with
  | equals | clear => cases h
  | _ => rfl

theorem pressAll_of_writes (keypad : Keypad) {keys : List Key} (h : ∀ key ∈ keys, key.Writes) :
    keypad.pressAll keys = ⟨keypad.display ++ String.ofList (Key.written keys)⟩ := by
  induction keys generalizing keypad with
  | nil => simp [pressAll, Key.written]
  | cons key keys ih =>
    have hkey := h key List.mem_cons_self
    show (keypad.press key).1.pressAll keys = _
    rw [press_of_writes keypad hkey, ih _ fun key hkey => h key (List.mem_cons_of_mem _ hkey)]
    simp [Key.written, String.append_assoc]

/-- What the display holds after keys of which the last is `=` or `C`, or before any key. -/
inductive Base : List Key → String → Prop where
  | blank : Base [] ""
  | cleared (keys : List Key) : Base (keys ++ [.clear]) ""
  | evaluated (keys : List Key) : Base (keys ++ [.equals])
    (Display.outcomeText (evaluate (blank.pressAll keys).display))

theorem display_of_base {keys : List Key} {base : String} (h : Base keys base) :
    (blank.pressAll keys).display = base := by
  cases h with
  | blank => rfl
  | cleared keys | evaluated keys => rw [pressAll_append]; rfl

/-- Keys end in some that write, behind the last `=` or `C`. -/
theorem exists_base_append (keys : List Key) :
    ∃ earlier later base, keys = earlier ++ later ∧ (∀ key ∈ later, key.Writes) ∧
      Base earlier base := by
  induction keys using List.reverseRecOn with
  | nil => exact ⟨[], [], "", rfl, nofun, .blank⟩
  | append_singleton keys key ih =>
    cases key with
    | equals => exact ⟨keys ++ [.equals], [], _, (List.append_nil _).symm, nofun, .evaluated keys⟩
    | clear => exact ⟨keys ++ [.clear], [], "", (List.append_nil _).symm, nofun, .cleared keys⟩
    | _ =>
      obtain ⟨earlier, later, base, rfl, hlater, hbase⟩ := ih
      refine ⟨earlier, later ++ [_], base, List.append_assoc _ _ _, fun key hkey => ?_, hbase⟩
      rcases List.mem_append.mp hkey with hkey | hkey
      · exact hlater key hkey
      · cases List.mem_singleton.mp hkey
        trivial

/-- **The display is what the last `=` or `C` has left and what was written since.** -/
theorem exists_base (keys : List Key) :
    ∃ earlier later base, keys = earlier ++ later ∧ (∀ key ∈ later, key.Writes) ∧
      Base earlier base ∧
      (blank.pressAll keys).display = base ++ String.ofList (Key.written later) := by
  obtain ⟨earlier, later, base, rfl, hlater, hbase⟩ := exists_base_append keys
  refine ⟨earlier, later, base, rfl, hlater, hbase, ?_⟩
  rw [pressAll_append, pressAll_of_writes _ hlater, display_of_base hbase]

/-! ### Pressing labels -/

theorem pressLabel_of_some (keypad : Keypad) {label : String} {key : Key}
    (h : Key.ofLabel? label = some key) : keypad.pressLabel label = keypad.press key := by
  rw [pressLabel, h]

theorem pressLabel_of_none (keypad : Keypad) {label : String} (h : Key.ofLabel? label = none) :
    keypad.pressLabel label = (keypad, .unknownLabel label) := by
  rw [pressLabel, h]

theorem foldl_advance (keypad : Keypad) (succeeded : Bool) (labels : List String) :
    labels.foldl advance (keypad, succeeded) =
      ((keypad.run labels).1, succeeded && (keypad.run labels).2) := by
  unfold run
  induction labels generalizing keypad succeeded with
  | nil => simp
  | cons label labels ih =>
    simp only [List.foldl_cons, advance]
    rw [ih, ih _ (true && _)]
    simp [Bool.and_assoc]

theorem run_cons (keypad : Keypad) (label : String) (labels : List String) :
    keypad.run (label :: labels) =
      (((keypad.pressLabel label).1.run labels).1,
        (keypad.pressLabel label).2.succeeded && ((keypad.pressLabel label).1.run labels).2) := by
  show labels.foldl advance (_, true && _) = _
  rw [foldl_advance, Bool.true_and]

theorem run_append (keypad : Keypad) (labels more : List String) :
    keypad.run (labels ++ more) =
      (((keypad.run labels).1.run more).1, (keypad.run labels).2 && ((keypad.run labels).1.run more).2) := by
  rw [run, List.foldl_append]
  exact foldl_advance _ _ _

theorem fst_run_append_singleton (keypad : Keypad) (labels : List String) (label : String) :
    (keypad.run (labels ++ [label])).1 = ((keypad.run labels).1.pressLabel label).1 := by
  rw [run_append]
  rfl

theorem pressLabel_equals (keypad : Keypad) :
    keypad.pressLabel "=" =
      (⟨Display.outcomeText (evaluate keypad.display)⟩, .evaluated (evaluate keypad.display)) :=
  pressLabel_of_some keypad (Key.ofLabel?_eq_equals_iff.mpr rfl)

theorem run_equals (keypad : Keypad) :
    keypad.run ["="] =
      (⟨Display.outcomeText (evaluate keypad.display)⟩, (evaluate keypad.display).isOk) := by
  rw [run_cons, pressLabel_equals]
  cases evaluate keypad.display <;> rfl

/-- **A run leads where its keys lead.** -/
theorem fst_run (keypad : Keypad) (labels : List String) :
    (keypad.run labels).1 = keypad.pressAll (Key.ofLabels labels) := by
  induction labels generalizing keypad with
  | nil => rfl
  | cons label labels ih =>
    rw [run_cons, ih]
    unfold Key.ofLabels
    cases h : Key.ofLabel? label with
    | none => rw [pressLabel_of_none keypad h, List.filterMap_cons_none h]
    | some key => rw [pressLabel_of_some keypad h, List.filterMap_cons_some h]; rfl

/-- **A run succeeds if all of its presses do.** -/
theorem snd_run_iff {keypad : Keypad} {labels : List String} :
    (keypad.run labels).2 = true ↔ ∀ before label after, labels = before ++ label :: after →
      ((keypad.run before).1.pressLabel label).2.succeeded = true := by
  induction labels generalizing keypad with
  | nil => exact iff_of_true rfl fun before label after h => by simp at h
  | cons first labels ih =>
    rw [run_cons, Bool.and_eq_true, ih]
    constructor
    · rintro ⟨hfirst, hrest⟩ before label after h
      cases before with
      | nil =>
        cases h
        exact hfirst
      | cons first before =>
        cases h
        rw [run_cons]
        exact hrest before label after rfl
    · intro h
      refine ⟨h [] first labels rfl, fun before label after hlabels => ?_⟩
      have hpress := h (first :: before) label after (congrArg (first :: ·) hlabels)
      rwa [run_cons] at hpress

/-- A press succeeds unless its label is unknown or it evaluates what has no value. -/
theorem succeeded_pressLabel_iff {keypad : Keypad} {label : String} :
    (keypad.pressLabel label).2.succeeded = true ↔
      (Key.ofLabel? label).isSome ∧ (label = "=" → ∃ v, evaluate keypad.display = .ok v) := by
  cases h : Key.ofLabel? label with
  | none =>
    rw [pressLabel_of_none keypad h]
    simp [Reaction.succeeded]
  | some key =>
    rw [pressLabel_of_some keypad h]
    by_cases hkey : key = .equals
    · subst hkey
      rw [Key.ofLabel?_eq_equals_iff.mp h]
      show (Reaction.evaluated (evaluate keypad.display)).succeeded = true ↔ _
      cases evaluate keypad.display <;> simp [Reaction.succeeded]
    · have hlabel : label ≠ "=" := fun hlabel => by
        rw [Key.ofLabel?_eq_equals_iff.mpr hlabel] at h
        exact hkey (Option.some.inj h).symm
      have hpress : (keypad.press key).2 = .edited := by
        cases key with
        | equals => exact absurd rfl hkey
        | _ => rfl
      rw [hpress]
      simp [Reaction.succeeded, hlabel]

/-- **A run succeeds if all its labels are known and every `=` finds a value.** -/
theorem snd_run_iff_known {keypad : Keypad} {labels : List String} :
    (keypad.run labels).2 = true ↔ (∀ label ∈ labels, (Key.ofLabel? label).isSome) ∧
      ∀ before after, labels = before ++ "=" :: after →
        ∃ v, evaluate (keypad.run before).1.display = .ok v := by
  rw [snd_run_iff]
  constructor
  · intro h
    refine ⟨fun label hlabel => ?_, fun before after hlabels => ?_⟩
    · obtain ⟨before, after, hlabels⟩ := List.append_of_mem hlabel
      exact (succeeded_pressLabel_iff.mp (h before label after hlabels)).1
    · exact (succeeded_pressLabel_iff.mp (h before "=" after hlabels)).2 rfl
  · rintro ⟨hknown, hequals⟩ before label after rfl
    refine succeeded_pressLabel_iff.mpr ⟨hknown label (by simp), fun hlabel => ?_⟩
    subst hlabel
    exact hequals before after rfl

/-! ### What every press brings about -/

theorem length_trace (keypad : Keypad) (labels : List String) :
    (keypad.trace labels).length = labels.length := by
  induction labels generalizing keypad with
  | nil => rfl
  | cons label labels ih => rw [trace, List.length_cons, ih, List.length_cons]

theorem trace_append (keypad : Keypad) (labels more : List String) :
    keypad.trace (labels ++ more) = keypad.trace labels ++ (keypad.run labels).1.trace more := by
  induction labels generalizing keypad with
  | nil => rfl
  | cons label labels ih => rw [List.cons_append, trace, ih, run_cons, trace, List.cons_append]

/-- What a press in a run brings about. -/
theorem getElem?_trace (keypad : Keypad) (before : List String) (label : String) (after : List String) :
    (keypad.trace (before ++ label :: after))[before.length]? =
      some ((keypad.run before).1.pressLabel label) := by
  rw [trace_append, List.getElem?_append_right (by rw [length_trace]), length_trace, Nat.sub_self]
  rfl

/-- **Labels that no key carries could as well not be pressed.** -/
theorem trace_filter (keypad : Keypad) (labels : List String) :
    ((labels.zip (keypad.trace labels)).filter fun press => (Key.ofLabel? press.1).isSome).map
        Prod.snd = keypad.trace (labels.filter fun label => (Key.ofLabel? label).isSome) := by
  induction labels generalizing keypad with
  | nil => rfl
  | cons label labels ih =>
    rw [trace, List.zip_cons_cons, List.filter_cons, List.filter_cons]
    cases h : Key.ofLabel? label with
    | none =>
      rw [pressLabel_of_none keypad h]
      exact ih keypad
    | some key =>
      simp only [Option.isSome_some, if_true, List.map_cons, trace]
      rw [ih]

end Keypad
end Calculator
