import ZipMount.Proofs.Action
import ZipMount.Proofs.Calls

namespace ZipMount

/-- An action that comes down to calls, as many as it takes, and stops short with errors only. -/
def Action.Calling {α : Type} (act : Action α) : Prop :=
  ∀ w, (∃ cs, (act w).2 = w.after cs) ∧ ∀ t, (act w).1 ≠ .error (.offCalendar t)

theorem World.after_append (w : World) (cs ds : List Call) :
    w.after (cs ++ ds) = (w.after cs).after ds :=
  List.foldl_append

namespace Action

variable {α β : Type} {act : Action α} {f : α → Action β}

theorem calling_pure (a : α) : (pure a : Action α).Calling := fun _ => ⟨⟨[], rfl⟩, nofun⟩

theorem calling_fail (e : Error) : (fail e : Action α).Calling := fun _ => ⟨⟨[], rfl⟩, nofun⟩

theorem calling_ask (g : World → Except Error α) : (ask g).Calling := by
  intro w
  unfold ask
  cases g w with
  | ok a => exact ⟨⟨[], rfl⟩, nofun⟩
  | error e => exact ⟨⟨[], rfl⟩, nofun⟩

theorem calling_get {g : World → Action α} (h : ∀ w, (g w).Calling) : (get >>= g).Calling :=
  fun w => h w w

theorem Calling.noted (h : act.Calling) (note : String) : (noted note act).Calling := by
  intro w
  obtain ⟨hcalls, hdated⟩ := h w
  rw [noted_world]
  refine ⟨hcalls, fun t => ?_⟩
  cases hact : act w with
  | mk r v =>
    rw [hact] at hdated
    cases r with
    | ok a =>
      rw [noted_of_ok hact]
      exact nofun
    | error e =>
      rw [noted_of_error hact]
      cases e with
      | error e => exact nofun
      | offCalendar t' => exact absurd rfl (hdated t')

theorem Calling.bind (h : act.Calling) (hf : ∀ a, (f a).Calling) : (act >>= f).Calling := by
  intro w
  obtain ⟨⟨cs, hcs⟩, hdated⟩ := h w
  rw [bind_eq]
  cases hact : act w with
  | mk r v =>
    rw [hact] at hcs hdated
    cases r with
    | error e =>
      refine ⟨⟨cs, hcs⟩, fun t ht => hdated t ?_⟩
      cases ht
      rfl
    | ok a =>
      obtain ⟨⟨ds, hds⟩, hlater⟩ := hf a v
      refine ⟨⟨cs ++ ds, ?_⟩, hlater⟩
      rw [World.after_append, ← hcs]
      exact hds

theorem calling_forM {g : α → Action Unit} (hg : ∀ a, (g a).Calling) (as : List α) :
    Calling (as.forM g) := by
  induction as with
  | nil => exact calling_pure ()
  | cons a as ih => exact (hg a).bind fun _ => ih

/-- Work that a call does comes down to the call. -/
theorem calling_ofWork {x : Work Unit} {c : Call} (hx : ∀ w, c.run w = Call.answered (x w)) :
    (ofWork x).Calling := by
  intro w
  have hrun : w.after [c] = (x w).2 := congrArg Prod.snd (hx w)
  unfold ofWork
  rcases hw : x w with ⟨_ | _, v⟩
  · rw [hw] at hrun
    exact ⟨⟨[c], hrun.symm⟩, nofun⟩
  · rw [hw] at hrun
    exact ⟨⟨[c], hrun.symm⟩, nofun⟩

end Action

namespace FileSystem

theorem calling_stamp (time : Instant) (p : Path) : (stamp time p).Calling :=
  (Action.calling_ofWork (c := ⟨p.provider, p, .setTimes (.all time)⟩) fun _ => rfl).noted _

theorem calling_stampAll (fs : FileSystem) (time : Instant) : (fs.stampAll time).Calling :=
  (Action.calling_ask _).bind fun found => Action.calling_forM (calling_stamp time) found.tail

end FileSystem

end ZipMount
