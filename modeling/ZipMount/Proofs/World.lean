import ZipMount.Proofs.Calls
import ZipMount.Proofs.Host.Calls

namespace ZipMount

/-- The shape of the host's files and of the members of every archive. -/
structure World.WellFormed (w : World) : Prop where
  host : w.host.WellFormed
  trees : ∀ m ∈ w.mounts, m.tree.WellFormed

/-- Whether the working directory is still there. -/
def Host.HasWorking (h : Host) : Prop := h.kind? h.workingDirectory = some .directory

/-- What a change asked of a provider leaves of the shape of the host's files. -/
theorem Provider.host_of_target {w vh vt w' : World} (hh : vh = w ∨ vh = w.tick)
    (ht : vt = w ∨ vt = w.tick) {prov : Provider} {p : Path}
    {onHost : Pathname → Host → Except IoFault Host}
    {onTree : Pathname → Tree → Except Refusal Tree} (hw : w.host.WellFormed)
    (hkept : ∀ q g g', g.WellFormed → onHost q g = .ok g' → g'.HasWorking → g'.WellFormed)
    (h : (do
      match ← prov.target p with
      | .host q => vh.changeHost q (onHost q)
      | .member id q => vt.changeTree id q (onTree q)) = .ok w')
    (hd : w'.host.HasWorking) : w'.host.WellFormed := by
  obtain ⟨target, -, h⟩ := bind_eq_ok h
  cases target with
  | host q =>
    obtain ⟨host, hhost, rfl⟩ := World.changeHost_ok h
    rw [World.host_of_clock hh] at hhost
    exact hkept q _ _ hw hhost hd
  | member id q =>
    obtain ⟨m, t, -, -, rfl⟩ := World.changeTree_ok h
    exact World.host_of_clock ht ▸ hw

namespace Provider

variable {w w' : World} {prov : Provider} {p : Path}

theorem setTimes_host (hw : w.host.WellFormed) {change : TimeChange}
    (h : prov.setTimes w p change = .ok w') (hd : w'.host.HasWorking) : w'.host.WellFormed :=
  host_of_target (Or.inl rfl) (Or.inl rfl) hw
    (fun _ _ _ hg h _ => Host.setTimes_wellFormed hg h) h hd

theorem makeDirectory_host (hw : w.host.WellFormed) (h : prov.makeDirectory w p = .ok w')
    (hd : w'.host.HasWorking) : w'.host.WellFormed :=
  host_of_target (Or.inr rfl) (Or.inr rfl) hw
    (fun _ _ _ hg h _ => Host.makeDirectory_wellFormed hg h) h hd

theorem write_host (hw : w.host.WellFormed) {data : ByteArray} {mode : WriteMode}
    (h : prov.write w p data mode = .ok w') (hd : w'.host.HasWorking) : w'.host.WellFormed :=
  host_of_target (Or.inr rfl) (Or.inr rfl) hw
    (fun _ _ _ hg h _ => Host.write_wellFormed hg h) h hd

theorem delete_host (hw : w.host.WellFormed) (h : prov.delete w p = .ok w')
    (hd : w'.host.HasWorking) : w'.host.WellFormed :=
  host_of_target (Or.inr rfl) (Or.inl rfl) hw
    (fun _ _ _ hg h hd => Host.remove_wellFormed hg h hd) h hd

end Provider

/-- A call keeps the shape of the host's files. -/
theorem Call.host_wellFormed {w : World} (hw : w.host.WellFormed) (c : Call)
    (hd : (c.run w).2.host.HasWorking) : (c.run w).2.host.WellFormed := by
  have hchanged : ∀ r : Except Error World,
      (∀ w', r = .ok w' → w'.host.HasWorking → w'.host.WellFormed) →
        (changed w r).2.host.HasWorking → (changed w r).2.host.WellFormed := by
    intro r hr hd
    cases r with
    | error e => exact hw
    | ok w' => exact hr w' rfl hd
  rw [run_eq] at hd ⊢
  cases hop : c.operation with
  | check modes => exact hw
  | attributes => exact hw
  | read => exact hw
  | list => exact hw
  | walk order => exact hw
  | setTimes change =>
    rw [hop] at hd
    exact hchanged _ (fun _ => Provider.setTimes_host hw) hd
  | makeDirectory =>
    rw [hop] at hd
    exact hchanged _ (fun _ => Provider.makeDirectory_host hw) hd
  | write data mode =>
    rw [hop] at hd
    exact hchanged _ (fun _ => Provider.write_host hw) hd
  | delete =>
    rw [hop] at hd
    exact hchanged _ (fun _ => Provider.delete_host hw) hd

namespace World

variable {w w' : World}

/-- A change of the world keeps the shape of every archive's members. -/
theorem Changed.trees (h : w.Changed w') (hw : ∀ m ∈ w.mounts, m.tree.WellFormed) :
    ∀ m ∈ w'.mounts, m.tree.WellFormed := by
  cases h with
  | host v hv h =>
    exact mounts_of_clock hv ▸ hw
  | tree v hv id m t hm hs =>
    have hmem : m ∈ w.mounts := List.mem_of_getElem? (writableMount_ok.mp hm).1
    intro m' hm'
    rcases List.mem_or_eq_of_mem_set hm' with hold | rfl
    · exact hw m' (mounts_of_clock hv ▸ hold)
    · exact (hw m hmem).step hs

/-- A call keeps the shape of a world. -/
theorem WellFormed.run (hw : w.WellFormed) (c : Call) (hd : (c.run w).2.host.HasWorking) :
    (c.run w).2.WellFormed := by
  refine ⟨c.host_wellFormed hw.host hd, ?_⟩
  rcases c.run_cases w with hsame | hchanged
  · rw [hsame]
    exact hw.trees
  · exact hchanged.trees hw.trees

/-- Any number of calls keep the shape of a world. -/
theorem WellFormed.after (hw : w.WellFormed) (cs : List Call)
    (hd : ∀ before, before <+: cs → (w.after before).host.HasWorking) : (w.after cs).WellFormed := by
  induction cs generalizing w with
  | nil => exact hw
  | cons c cs ih =>
    have hstep : (c.run w).2.host.HasWorking := hd [c] ⟨cs, rfl⟩
    apply ih (hw.run c hstep)
    intro before hbefore
    exact hd (c :: before) (List.cons_prefix_cons.mpr ⟨rfl, hbefore⟩)

end World

end ZipMount
