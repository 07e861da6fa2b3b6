import ZipMount.Proofs.Archives.Copy
import ZipMount.Proofs.Mounting.Lifetime

namespace ZipMount

open MemberKey

namespace FileSystem

variable {w₀ w w' : World} {id : MountId} {m₀ : Mount} {o : Outline} {time : Instant}

/-- A proper tree whose members hold this, some of them with one time already. -/
def Marked (o : Outline) (time : Instant) (done : List MemberKey) (t : Tree) : Prop :=
  t.Outlined o ∧ ∀ k ∈ done, t.Stamped time k

theorem stamp_marks (hm : m₀.Ready) {done : List MemberKey}
    (h : w₀.SameBut id m₀ (Marked o time done) w) {k : MemberKey} (hk : Canonical k)
    (hrun : stamp time (.ofKey id k) w = (.ok (), w')) :
    w₀.SameBut id m₀ (Marked o time (k :: done)) w' := by
  rw [FileSystem.stamp_eq_noted] at hrun
  have hchange : w.changeTree id k.pathname
      (fun t => t.retime (ofPathname k.pathname) (.all time)) = .ok w' :=
    Action.change_ok (Action.noted_ok hrun)
  rw [ofPathname_pathname hk] at hchange
  apply h.changeTree hm hchange
  rintro t t' ⟨⟨hwf, hout⟩, hdone⟩ ht
  refine ⟨⟨Tree.wellFormed_of_order hwf (Tree.order_retime ht), ?_⟩, ?_⟩
  · rw [Tree.outline_retime ht]
    exact hout
  · intro j hj
    rcases List.mem_cons.mp hj with rfl | hj
    · exact Tree.stamped_retime ht
    · exact (hdone j hj).retime ht

theorem forM_stamp_marks (hm : m₀.Ready) {done ks : List MemberKey}
    (h : w₀.SameBut id m₀ (Marked o time done) w) (hks : ∀ k ∈ ks, Canonical k)
    (hrun : (ks.map (Path.ofKey id)).forM (stamp time) w = (.ok (), w')) :
    w₀.SameBut id m₀ (fun t => t.Outlined o ∧ ∀ k ∈ ks, t.Stamped time k) w' := by
  suffices hall : w₀.SameBut id m₀ (Marked o time (ks.reverse ++ done)) w' by
    obtain ⟨t, ht, hout, hdone⟩ := hall.mount
    refine ⟨hall.host, hall.others, t, ht, hout, ?_⟩
    intro k hk
    exact hdone k (List.mem_append_left _ (List.mem_reverse.mpr hk))
  induction ks generalizing done w with
  | nil =>
    obtain ⟨-, rfl⟩ := Action.pure_ok hrun
    exact h
  | cons k ks ih =>
    obtain ⟨u, v, hfirst, hrest⟩ := Action.bind_ok hrun
    have hmarked := stamp_marks hm h (hks k List.mem_cons_self) hfirst
    rw [List.reverse_cons, List.append_assoc]
    exact ih hmarked (fun j hj => hks j (List.mem_cons_of_mem _ hj)) hrest

/-- Every member gets the time. -/
theorem stampAll_stamps (hm : m₀.Ready) (h : w₀.SameBut id m₀ (Tree.Outlined o) w)
    (hrun : (archive id).stampAll time w = (.ok (), w')) :
    w₀.SameBut id m₀ (fun t => t.Outlined o ∧ ∀ k ∈ t.order, t.Stamped time k) w' := by
  unfold stampAll at hrun
  obtain ⟨found, v, hask, hrest⟩ := Action.bind_ok hrun
  obtain ⟨hfound, rfl⟩ := Action.ask_ok hask
  obtain ⟨m, hopen, rfl⟩ := Path.walk_member (q := MemberKey.pathname []) hfound
  obtain ⟨t, ht, hwf, hout⟩ := h.openMount hm
  rw [ht] at hopen
  cases hopen
  rw [ofPathname_pathname canonical_nil, ← List.map_tail] at hrest
  obtain ⟨ks, hks, hmem⟩ := hwf.preorder_root .sorted
  rw [List.length_nil, Nat.sub_zero, hks, List.tail_cons] at hrest
  have hstart : w₀.SameBut id m₀ (Marked o time []) v := by
    obtain ⟨t', ht', hP⟩ := h.mount
    exact ⟨h.host, h.others, t', ht', hP, fun k hk => (List.not_mem_nil hk).elim⟩
  have hend := forM_stamp_marks hm hstart (fun k hk => hwf.canonical k ((hmem k).mp hk)) hrest
  obtain ⟨t', ht', hout', hstamped⟩ := hend.mount
  refine ⟨hend.host, hend.others, t', ht', hout', ?_⟩
  intro k hk
  apply hstamped k
  rw [hmem, ← Tree.keys_outline, hout, ← hout'.2, Tree.keys_outline]
  exact hk

/-- A mount that is closed is written to its file. -/
theorem closeMount_writes {m : Mount} (hm : m.Ready) {file : Pathname} (hb : m.backing = .host file)
    (hrun : w.closeMount id m = (.ok (), w')) :
    ∃ data now, m.tree.encode m.options.method = .ok data ∧
      w.host.write now file data .replace = .ok w'.host := by
  rcases World.closeMount_ok hrun with ⟨hleft | hleft, -⟩ | ⟨data, x, hdata, hwrite, rfl⟩
  · rw [hm.dirty] at hleft
    cases hleft
  · rw [hm.readOnly] at hleft
    cases hleft
  · rw [hb] at hwrite
    have hchange : (w.setMount id m.closed).tick.changeHost file
        (fun h => h.write w.now file data .replace) = .ok x := hwrite
    obtain ⟨host, hhost, rfl⟩ := World.changeHost_ok hchange
    rw [World.host_release]
    exact ⟨data, w.now, hdata, hhost⟩

/-- What is written when a file system is closed that gives its members one time. -/
theorem close_writes (hm : m₀.Ready) {file : Pathname} (hb : m₀.backing = .host file) {n : Nat}
    (h : w₀.SameBut id m₀ (Tree.Outlined o) w)
    (hrun : (stamping n (archive id) (some time)).close w = (.ok (), w')) :
    ∃ (t : Tree) (data : ByteArray) (now : Instant), t.members = o.map (fun kc => (kc.1, ⟨kc.2, .all time⟩)) ∧
      t.encode m₀.options.method = .ok data ∧
        w₀.host.write now file data .replace = .ok w'.host := by
  have hopen : ∀ {P v}, w₀.SameBut id m₀ P v → (archive id).isOpen v = true := by
    intro P v hv
    obtain ⟨t, ht, -⟩ := hv.mount
    change ((v.mount? id).map Mount.isOpen).getD false = true
    rw [ht]
    exact hm.isOpen
  unfold close at hrun
  simp only [hopen h, if_true] at hrun
  obtain ⟨v, hstamp, hclose⟩ := andThen_ok hrun
  have hstamped := stampAll_stamps hm h hstamp
  obtain ⟨t, ht, ⟨hwf, hout⟩, htimes⟩ := hstamped.mount
  have hready : ({ m₀ with tree := t } : Mount).Ready := ⟨hm.isOpen, hm.readOnly, hm.dirty⟩
  unfold close at hclose
  simp only [ht, hm.isOpen, if_true] at hclose
  obtain ⟨data, now, hdata, hwrite⟩ := closeMount_writes hready hb hclose
  rw [hstamped.host] at hwrite
  refine ⟨t, data, now, ?_, hdata, hwrite⟩
  rw [← hout]
  exact Tree.members_of_stamped hwf htimes

end FileSystem

end ZipMount
