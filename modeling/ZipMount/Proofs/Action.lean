import ZipMount.Proofs.Changing

namespace ZipMount

namespace Action

variable {α β : Type} {w w' : World}

theorem bind_eq (x : Action α) (f : α → Action β) (w : World) :
    (x >>= f) w = match x w with
      | (.ok a, v) => f a v
      | (.error e, v) => (.error e, v) := by
  rw [runBind_eq]
  rcases x w with ⟨_ | _, _⟩ <;> rfl

theorem bind_ok {x : Action α} {f : α → Action β} {b : β} (h : (x >>= f) w = (.ok b, w')) :
    ∃ a v, x w = (.ok a, v) ∧ f a v = (.ok b, w') := by
  rw [bind_eq] at h
  cases hx : x w with
  | mk r v =>
    rw [hx] at h
    cases r with
    | error e => cases h
    | ok a => exact ⟨a, v, rfl, h⟩

theorem bind_of_ok {x : Action α} {a : α} {v : World} (h : x w = (.ok a, v))
    (f : α → Action β) : (x >>= f) w = f a v := by
  rw [bind_eq, h]

theorem bind_of_error {x : Action α} {e : Failure} {v : World} (h : x w = (.error e, v))
    (f : α → Action β) : (x >>= f) w = (.error e, v) := by
  rw [bind_eq, h]

/-- What holds after the first of two actions, and after both, holds whatever comes of them. -/
theorem bind_world {P : World → Prop} {x : Action α} {f : α → Action β} (hx : P (x w).2)
    (hf : ∀ a v, x w = (.ok a, v) → P (f a v).2) : P ((x >>= f) w).2 := by
  cases h : x w with
  | mk r v =>
    cases r with
    | ok a =>
      rw [bind_of_ok h]
      exact hf a v h
    | error e =>
      rw [bind_of_error h]
      rw [h] at hx
      exact hx

theorem get_bind (f : World → Action β) (w : World) : (get >>= f) w = f w w := rfl

theorem ask_of_ok {f : World → Except Error α} {a : α} (h : f w = .ok a) :
    ask f w = (.ok a, w) := by
  unfold ask
  rw [h]

theorem ask_of_error {f : World → Except Error α} {e : Error} (h : f w = .error e) :
    ask f w = (.error (.error e), w) := by
  unfold ask
  rw [h]

theorem change_of_ok {f : World → Except Error World} (h : f w = .ok w') :
    change f w = (.ok (), w') := by
  unfold change
  rw [h]

theorem change_of_error {f : World → Except Error World} {e : Error} (h : f w = .error e) :
    change f w = (.error (.error e), w) := by
  unfold change
  rw [h]

theorem noted_of_ok {x : Action α} {a : α} (h : x w = (.ok a, w')) (note : String) :
    noted note x w = (.ok a, w') := by
  unfold noted
  rw [h]

theorem noted_of_error {x : Action α} {f : Failure} (h : x w = (.error f, w')) (note : String) :
    noted note x w = (.error (f.noted note), w') := by
  unfold noted
  rw [h]

theorem noted_world (note : String) (x : Action α) (w : World) : (noted note x w).2 = (x w).2 := by
  cases h : x w with
  | mk r v =>
    cases r with
    | ok a => rw [noted_of_ok h]
    | error e => rw [noted_of_error h]

theorem noted_congr {note : String} {x y : Action α} (h : x w = y w) :
    noted note x w = noted note y w := by
  unfold noted
  rw [h]

theorem attempt_of_ok {x : Action α} {a : α} (h : x w = (.ok a, w')) :
    attempt x w = (.ok (.ok a), w') := by
  unfold attempt
  rw [h]

theorem attempt_of_error {x : Action α} {e : Error} (h : x w = (.error (.error e), w')) :
    attempt x w = (.ok (.error e), w') := by
  unfold attempt
  rw [h]

theorem forM_cons (f : α → Action Unit) (a : α) (as : List α) (w : World) :
    (a :: as).forM f w = (f a >>= fun _ => as.forM f) w := rfl

/-- What is done for the rest of a list, once the start of it went well. -/
theorem forM_append {f : α → Action Unit} {as : List α} {v : World}
    (h : as.forM f w = (.ok (), v)) (bs : List α) : (as ++ bs).forM f w = bs.forM f v := by
  induction as generalizing w with
  | nil =>
    cases h
    rfl
  | cons a as ih =>
    rw [forM_cons, bind_eq] at h
    rw [List.cons_append, forM_cons, bind_eq]
    cases ha : f a w with
    | mk r u =>
      rw [ha] at h
      cases r with
      | error e => cases h
      | ok x => exact ih h

theorem forM_map {f : β → Action Unit} {g : α → β} {f' : α → Action Unit} {as : List α}
    (h : ∀ a ∈ as, f (g a) = f' a) : (as.map g).forM f = as.forM f' := by
  induction as with
  | nil => rfl
  | cons a as ih =>
    have hrest := ih fun b hb => h b (List.mem_cons_of_mem a hb)
    apply funext
    intro w
    rw [List.map_cons, forM_cons, forM_cons, h a List.mem_cons_self, hrest]

/-- What each action of a row keeps, the row keeps, however far it comes. -/
theorem forM_world {P : World → Prop} {f : α → Action Unit} {as : List α}
    (hf : ∀ a ∈ as, ∀ v, P v → P (f a v).2) (hw : P w) : P (as.forM f w).2 := by
  induction as generalizing w with
  | nil => exact hw
  | cons a as ih =>
    have hfirst := hf a List.mem_cons_self w hw
    refine bind_world hfirst fun _ v ha => ?_
    rw [ha] at hfirst
    exact ih (fun b hb => hf b (List.mem_cons_of_mem a hb)) hfirst

/-- A row of actions goes through if each goes through after those before it, and leads from what
holds before it to what holds after it. -/
theorem forM_of_steps {P : List α → World → Prop} {f : α → Action Unit} {as : List α}
    (hf : ∀ before a after, as = before ++ a :: after → ∀ v, P before v →
      ∃ v', f a v = (.ok (), v') ∧ P (before ++ [a]) v') (hw : P [] w) :
    ∃ w', as.forM f w = (.ok (), w') ∧ P as w' := by
  suffices hall : ∀ before after, as = before ++ after → ∀ v, P before v →
      ∃ w', after.forM f v = (.ok (), w') ∧ P as w' from hall [] as rfl w hw
  intro before after
  induction after generalizing before with
  | nil =>
    intro has v hv
    rw [List.append_nil] at has
    exact ⟨v, rfl, has ▸ hv⟩
  | cons a after ih =>
    intro has v hv
    obtain ⟨v', hfirst, hv'⟩ := hf before a after has v hv
    have hnext : as = (before ++ [a]) ++ after := by rw [has, List.append_assoc]; rfl
    obtain ⟨w', hrest, hw'⟩ := ih (before ++ [a]) hnext v' hv'
    exact ⟨w', by rw [forM_cons, bind_of_ok hfirst, hrest], hw'⟩

theorem pure_ok {a b : α} (h : (pure a : Action α) w = (.ok b, w')) : a = b ∧ w = w' := by
  cases h
  exact ⟨rfl, rfl⟩

theorem get_bind_ok {f : World → Action β} {b : β} (h : (get >>= f) w = (.ok b, w')) :
    f w w = (.ok b, w') := by
  obtain ⟨v, v', hget, hf⟩ := bind_ok h
  cases hget
  exact hf

theorem ask_ok {f : World → Except Error α} {a : α} (h : ask f w = (.ok a, w')) :
    f w = .ok a ∧ w' = w := by
  unfold ask at h
  cases hf : f w with
  | error e => rw [hf] at h; cases h
  | ok x =>
    rw [hf] at h
    cases h
    exact ⟨rfl, rfl⟩

theorem change_ok {f : World → Except Error World} (h : change f w = (.ok (), w')) :
    f w = .ok w' := by
  unfold change at h
  cases hf : f w with
  | error e => rw [hf] at h; cases h
  | ok v =>
    rw [hf] at h
    cases h
    rfl

theorem noted_ok {note : String} {x : Action α} {a : α} (h : noted note x w = (.ok a, w')) :
    x w = (.ok a, w') := by
  unfold noted at h
  cases hx : x w with
  | mk r v =>
    rw [hx] at h
    cases r with
    | error e => cases h
    | ok b => exact h

/-- An attempt fails with nothing but an instant off the calendar, and otherwise tells what came of
it. -/
theorem attempt_change {f : World → Except Error World} {r : Except Error Unit}
    (h : (change f).attempt w = (.ok r, w')) :
    (r = .ok () ∧ f w = .ok w') ∨ (∃ e, r = .error e ∧ f w = .error e ∧ w' = w) := by
  unfold attempt change at h
  cases hf : f w with
  | error e =>
    rw [hf] at h
    cases h
    exact Or.inr ⟨e, rfl, rfl, rfl⟩
  | ok v =>
    rw [hf] at h
    cases h
    exact Or.inl ⟨rfl, rfl⟩

end Action

theorem FileSystem.andThen_of_ok {first : Action Unit} {w v : World} (h : first w = (.ok (), v))
    (second : Action Unit) : andThen first second w = second v := by
  unfold andThen
  rw [h]

theorem FileSystem.andThen_of_error {first second : Action Unit} {w v : World} {e : Error}
    (h : first w = (.error (.error e), v)) (hs : ∀ t, (second v).1 ≠ .error (.offCalendar t)) :
    andThen first second w = (.error (.error e), (second v).2) := by
  unfold andThen
  rw [h]
  cases hsecond : second v with
  | mk r u =>
    rw [hsecond] at hs
    cases r with
    | ok x => simp only [hsecond]
    | error f =>
      cases f with
      | error e' => simp only [hsecond]
      | offCalendar t => exact absurd rfl (hs t)

theorem FileSystem.andThen_congr {first first' : Action Unit} {w : World}
    (h : first w = first' w) (second : Action Unit) :
    andThen first second w = andThen first' second w := by
  unfold andThen
  rw [h]

/-- What holds after the earlier of two actions, and after the later is done then, holds whatever
comes of them. -/
theorem FileSystem.andThen_world {P : World → Prop} {first second : Action Unit} {w : World}
    (hfirst : P (first w).2) (hsecond : P (second (first w).2).2) :
    P (andThen first second w).2 := by
  unfold andThen
  cases hf : first w with
  | mk r v =>
    rw [hf] at hfirst hsecond
    cases r with
    | ok u => exact hsecond
    | error f =>
      cases f with
      | offCalendar t => exact hfirst
      | error e =>
        cases hs : second v with
        | mk r' v' =>
          rw [hs] at hsecond
          cases r' with
          | ok u => simpa only [hs] using hsecond
          | error f => cases f <;> simpa only [hs] using hsecond

theorem FileSystem.andThen_ok {first second : Action Unit} {w w' : World}
    (h : andThen first second w = (.ok (), w')) :
    ∃ v, first w = (.ok (), v) ∧ second v = (.ok (), w') := by
  unfold andThen at h
  cases hf : first w with
  | mk r v =>
    rw [hf] at h
    cases r with
    | ok u => exact ⟨v, rfl, h⟩
    | error f =>
      cases f with
      | offCalendar t => cases h
      | error e =>
        cases hs : second v with
        | mk r' v' =>
          simp only [hs] at h
          split at h
          · cases h
          · cases h

end ZipMount
