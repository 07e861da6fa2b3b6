import ZipMount.Cache.Basic
import ZipMount.Proofs.Mounting.Kept

namespace ZipMount

namespace Cache

/-- What comes of closing each of the mounts beneath some shared ones, in this order. -/
def closings : List FileSystem → World → List (Except Failure Unit)
  | [], _ => []
  | fs :: rest, w => (fs.unwrapped.close w).1 :: closings rest (fs.unwrapped.close w).2

variable {w : World} {fs : FileSystem} {order : List FileSystem}

/-- Unless one stops short, each is closed, and the first failure is reported. -/
theorem closeAll_eq (h : ∀ t, .error (.offCalendar t) ∉ closings order w) :
    closeAll order w = ((closings order w).forM id,
      order.foldl (fun v fs => (fs.unwrapped.close v).2) w) := by
  induction order generalizing w with
  | nil => rfl
  | cons fs rest ih =>
    have hrest := ih fun t ht => h t (List.mem_cons_of_mem _ ht)
    change FileSystem.andThen fs.unwrapped.close (closeAll rest) w = _
    cases hclose : fs.unwrapped.close w with
    | mk r v =>
      have hcons : closings (fs :: rest) w = r :: closings rest v := by
        change (fs.unwrapped.close w).1 :: closings rest (fs.unwrapped.close w).2 = _
        rw [hclose]
      rw [hclose] at hrest
      rw [hcons, List.foldl_cons, hclose]
      cases r with
      | ok u =>
        rw [FileSystem.andThen_of_ok hclose]
        exact hrest
      | error f =>
        cases f with
        | offCalendar t => exact absurd (hcons ▸ List.mem_cons_self) (h t)
        | error e =>
          rw [FileSystem.andThen_of_error hclose, hrest]
          · rfl
          · intro t ht
            rw [hrest] at ht
            exact h t (hcons ▸ List.mem_cons_of_mem _ (mem_of_forM_id ht))

/-- Some mounts that are there, each under a proxy that keeps it open, with members that can be
packed unless the codec refuses them. -/
structure Closable (order : List FileSystem) (w : World) : Prop where
  mounted : ∀ fs ∈ order, ∃ number id, fs = .shared number (.archive id) ∧
    id.number < w.mounts.length
  dated : ∀ fs ∈ order, ∀ id, fs.innermost = .archive id → w.Dated id.number

namespace Closable

theorem rest (h : Closable (fs :: order) w) : Closable order (fs.unwrapped.close w).2 := by
  obtain ⟨number, id, rfl, -⟩ := h.mounted fs List.mem_cons_self
  refine ⟨fun fs hfs => ?_, fun fs hfs j hj => ?_⟩
  · obtain ⟨number', id', rfl, hlt⟩ := h.mounted fs (List.mem_cons_of_mem _ hfs)
    have hlater := (World.lasting_length w.mounts.length).closes (Nat.le_refl _) (.archive id)
    exact ⟨number', id', rfl, Nat.lt_of_lt_of_le hlt hlater⟩
  · exact (h.dated fs (List.mem_cons_of_mem _ hfs) j hj).close id

/-- None of them stops short. -/
theorem offCalendar (h : Closable order w) (t : Instant) :
    .error (.offCalendar t) ∉ closings order w := by
  induction order generalizing w with
  | nil => exact List.not_mem_nil
  | cons fs rest ih =>
    obtain ⟨number, id, hfs, -⟩ := h.mounted fs List.mem_cons_self
    have hdated := h.dated fs List.mem_cons_self id (by rw [hfs]; rfl)
    intro hmem
    rcases List.mem_cons.mp hmem with hfirst | hrest
    · rw [hfs] at hfirst
      exact hdated.offCalendar t hfirst.symm
    · exact ih h.rest hrest

end Closable

theorem closeAll_cons (h : Closable (fs :: order) w) :
    (closeAll (fs :: order) w).2 = (closeAll order (fs.unwrapped.close w).2).2 := by
  rw [closeAll_eq h.offCalendar, closeAll_eq h.rest.offCalendar]
  rfl

/-- What each closing keeps, they all keep. -/
theorem lasting_closeAll {P : World → Prop} (hP : World.Lasting P) (hw : P w)
    (order : List FileSystem) : P (closeAll order w).2 := by
  induction order generalizing w with
  | nil => exact hw
  | cons fs rest ih =>
    have hfirst := hP.closes hw fs.unwrapped
    exact FileSystem.andThen_world hfirst (ih hfirst)

/-- Once a mount is closed it stays closed while others are. -/
theorem isOpen_closeAll_of_closed {id : MountId} (hid : fs.innermost = .archive id)
    (hlt : id.number < w.mounts.length) (hclosed : fs.isOpen w = false) (order : List FileSystem) :
    fs.isOpen (closeAll order w).2 = false := by
  have hm : w.mount? id = some w.mounts[id.number] := List.getElem?_eq_getElem hlt
  obtain ⟨m, hm', -, -, hstays⟩ := lasting_closeAll (World.lasting_follows _ _)
    (World.follows_of_standing hm rfl) order
  have hmount : (closeAll order w).2.mount? id = some m := hm'
  rw [World.isOpen_of_innermost hid hmount]
  exact hstays ((World.isOpen_of_innermost hid hm).symm.trans hclosed)

theorem isOpen_closeAll (h : Closable order w) (hfs : fs ∈ order) :
    fs.isOpen (closeAll order w).2 = false := by
  induction order generalizing w with
  | nil => cases hfs
  | cons first rest ih =>
    rw [closeAll_cons h]
    rcases List.mem_cons.mp hfs with rfl | hfs
    · obtain ⟨number, id, rfl, hlt⟩ := h.mounted fs List.mem_cons_self
      have hlater := (World.lasting_length w.mounts.length).closes (Nat.le_refl _) (.archive id)
      exact isOpen_closeAll_of_closed rfl (Nat.lt_of_lt_of_le hlt hlater) (World.close_shuts id w)
        rest
    · exact ih h.rest hfs

theorem closeAll_ok_iff (h : Closable order w) :
    (closeAll order w).1 = .ok () ↔ ∀ r ∈ closings order w, r = .ok () := by
  rw [closeAll_eq h.offCalendar]
  exact forM_id_eq_ok

theorem mem_closings (h : Closable order w) {f : Failure} (hf : (closeAll order w).1 = .error f) :
    .error f ∈ closings order w := by
  rw [closeAll_eq h.offCalendar] at hf
  exact mem_of_forM_id hf

end Cache

end ZipMount
