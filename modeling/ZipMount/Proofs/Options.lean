import ZipMount.Options.Basic
import ZipMount.Proofs.Except
import ZipMount.Proofs.Letters

namespace ZipMount

open Text

namespace Options

def keys : List String := [createKey, ownerKey, groupKey, compressionKey]

/-- The options that are set, and others where none are. -/
def laidOver (o d : Options) : Options where
  create := o.create.or d.create
  defaultOwner := o.defaultOwner.or d.defaultOwner
  defaultGroup := o.defaultGroup.or d.defaultGroup
  compression := o.compression.or d.compression

/-- A text is a truth value but for the case of its letters. -/
def NamesBool (text : String) (b : Bool) : Prop := CaseVariant (boolName b) text

/-- A text is the name of a method but for the case of its letters. -/
def NamesMethod (text : String) (m : Compression) : Prop := CaseVariant m.name text

/-- The same once letters outside ASCII are spelled out that stand for ASCII letters. -/
def SpellsMethod (text : String) (m : Compression) : Prop := NamesMethod (spelledOut text) m

/-- How a table is read: with the truth values and the methods that its texts name, and the owner
and the group as they are. What text names a method is left open. -/
structure ReadWith (Method : String → Compression → Prop) (e : Env) : Prop where
  /-- A table is accepted just if each text that is there names something, -/
  accepted : (∃ o, ofEnv e = .ok o) ↔
    (∀ text, Table.get? e createKey = some text → ∃ b, NamesBool text b) ∧
      ∀ text, Table.get? e compressionKey = some text → ∃ m, Method text m
  /-- and sets what is named. -/
  set : ∀ o, ofEnv e = .ok o → Option.Rel NamesBool (Table.get? e createKey) o.create ∧
    o.defaultOwner = Table.get? e ownerKey ∧ o.defaultGroup = Table.get? e groupKey ∧
      Option.Rel Method (Table.get? e compressionKey) o.compression
  /-- Otherwise the first text that names nothing is given back. -/
  create_refused : ∀ text, Table.get? e createKey = some text → (¬ ∃ b, NamesBool text b) →
    ofEnv e = .error (.invalidOption createKey text)
  method_refused : (∀ text, Table.get? e createKey = some text → ∃ b, NamesBool text b) →
    ∀ text, Table.get? e compressionKey = some text → (¬ ∃ m, Method text m) →
      ofEnv e = .error (.invalidOption compressionKey text)

theorem boolOfName?_eq_some {text : String} {b : Bool} :
    boolOfName? text = some b ↔ NamesBool text b := by
  have hword : ∀ b, inSmalls text = boolName b ↔ NamesBool text b := by
    intro b
    cases b <;>
      exact inSmalls_eq_iff (by decide) (ascii_of_all (by decide)) (by decide) (by decide) text
  rw [← hword, boolOfName?]
  cases b with
  | true => simp [boolName]
  | false =>
    change (if _ then _ else _) = _ ↔ inSmalls text = "false"
    split <;> simp_all

theorem ofName?_eq_some {text : String} {m : Compression} :
    Compression.ofName? text = some m ↔ SpellsMethod text m := by
  have hword : ∀ m : Compression, inCapitals text = m.name ↔ SpellsMethod text m := by
    intro m
    cases m <;>
      exact inCapitals_eq_iff (by decide) (ascii_of_all (by decide)) (by decide) (by decide) text
  rw [← hword, Compression.ofName?]
  cases m with
  | stored => simp [Compression.name]
  | deflated =>
    change (if _ then _ else _) = _ ↔ inCapitals text = "DEFLATED"
    split <;> simp_all

theorem NamesMethod.spelledOut_eq {text : String} {m : Compression} (h : NamesMethod text m) :
    spelledOut text = text := by
  refine CaseVariant.spelledOut_eq ?_ h
  cases m <;> exact ascii_of_all (by decide)

theorem NamesMethod.spells {text : String} {m : Compression} (h : NamesMethod text m) :
    SpellsMethod text m := by
  rw [SpellsMethod, h.spelledOut_eq]
  exact h

variable {e d : Env} {o x : Options}

theorem readField_ok_iff {α : Type} {key : String} {read : String → Option α} {a : Option α} :
    readField e key read = .ok a ↔
      Option.Rel (fun text a => read text = some a) (Table.get? e key) a := by
  unfold readField
  constructor
  · intro h
    cases htext : Table.get? e key with
    | none =>
      rw [htext] at h
      cases h
      exact .none
    | some text =>
      rw [htext] at h
      simp only at h
      split at h
      · next b hb =>
        cases h
        exact .some hb
      · cases h
  · intro h
    generalize Table.get? e key = text at h
    cases h with
    | none => rfl
    | some hread => simp only [hread]

theorem readField_refused {α : Type} {key text : String} {read : String → Option α}
    (h : Table.get? e key = some text) (hread : read text = none) :
    readField e key read = .error (.invalidOption key text) := by
  unfold readField
  simp only [h, hread]

/-- The options a table sets. -/
theorem ofEnv_ok_iff : ofEnv e = .ok o ↔
    Option.Rel NamesBool (Table.get? e createKey) o.create ∧
      o.defaultOwner = Table.get? e ownerKey ∧ o.defaultGroup = Table.get? e groupKey ∧
        Option.Rel SpellsMethod (Table.get? e compressionKey) o.compression := by
  have hbool : (fun text b => boolOfName? text = some b) = NamesBool :=
    funext fun _ => funext fun _ => propext boolOfName?_eq_some
  have hmethod : (fun text m => Compression.ofName? text = some m) = SpellsMethod :=
    funext fun _ => funext fun _ => propext ofName?_eq_some
  rw [← hbool, ← hmethod, ← readField_ok_iff, ← readField_ok_iff]
  constructor
  · intro h
    obtain ⟨create, hcreate, h⟩ := bind_eq_ok h
    obtain ⟨method, hmethod, h⟩ := bind_eq_ok h
    cases h
    exact ⟨hcreate, rfl, rfl, hmethod⟩
  · rintro ⟨hcreate, howner, hgroup, hmethod⟩
    unfold ofEnv
    rw [hcreate, hmethod, ← howner, ← hgroup]
    rfl

theorem exists_rel {α β : Type} {r : α → β → Prop} {x : Option α}
    (h : ∀ a, x = some a → ∃ b, r a b) : ∃ y, Option.Rel r x y := by
  cases x with
  | none => exact ⟨none, .none⟩
  | some a =>
    obtain ⟨b, hb⟩ := h a rfl
    exact ⟨some b, .some hb⟩

theorem exists_of_rel {α β : Type} {r : α → β → Prop} {x : Option α} {y : Option β}
    (h : Option.Rel r x y) {a : α} (ha : x = some a) : ∃ b, r a b := by
  subst ha
  cases h with
  | some hb => exact ⟨_, hb⟩

theorem readWith_spells (e : Env) : ReadWith SpellsMethod e := by
  constructor
  · constructor
    · rintro ⟨o, ho⟩
      obtain ⟨hcreate, -, -, hmethod⟩ := ofEnv_ok_iff.mp ho
      exact ⟨fun _ => exists_of_rel hcreate, fun _ => exists_of_rel hmethod⟩
    · rintro ⟨hcreate, hmethod⟩
      obtain ⟨create, hcreate⟩ := exists_rel hcreate
      obtain ⟨method, hmethod⟩ := exists_rel hmethod
      exact ⟨⟨create, _, _, method⟩, ofEnv_ok_iff.mpr ⟨hcreate, rfl, rfl, hmethod⟩⟩
  · exact fun o => ofEnv_ok_iff.mp
  · intro text htext hnone
    have hread : boolOfName? text = none :=
      Option.eq_none_iff_forall_ne_some.mpr fun b hb => hnone ⟨b, boolOfName?_eq_some.mp hb⟩
    unfold ofEnv
    rw [readField_refused htext hread]
    rfl
  · intro hcreate text htext hnone
    have hread : Compression.ofName? text = none :=
      Option.eq_none_iff_forall_ne_some.mpr fun m hm => hnone ⟨m, ofName?_eq_some.mp hm⟩
    obtain ⟨create, hcreate⟩ := exists_rel fun text htext =>
      (hcreate text htext).imp fun b => boolOfName?_eq_some.mpr
    unfold ofEnv
    rw [readField_ok_iff.mpr hcreate, readField_refused htext hread]
    rfl

/-- Where no letter is to be spelled out in an accepted name of a method, names are names but for
the case of their letters. -/
theorem readWith_names_iff (e : Env) : ReadWith NamesMethod e ↔
    ¬ ∃ o text, ofEnv e = .ok o ∧ Table.get? e compressionKey = some text ∧
      spelledOut text ≠ text := by
  have hread := readWith_spells e
  constructor
  · rintro h ⟨o, text, ho, htext, hne⟩
    obtain ⟨m, hm⟩ := exists_of_rel (h.set o ho).2.2.2 htext
    exact hne hm.spelledOut_eq
  · intro hnone
    have hplain : ∀ o, ofEnv e = .ok o → ∀ text, Table.get? e compressionKey = some text →
        ∀ m, SpellsMethod text m → NamesMethod text m := by
      intro o ho text htext m hm
      have hself : spelledOut text = text := by
        by_contra hne
        exact hnone ⟨o, text, ho, htext, hne⟩
      rwa [SpellsMethod, hself] at hm
    refine ⟨⟨?_, ?_⟩, ?_, hread.create_refused, ?_⟩
    · rintro ⟨o, ho⟩
      obtain ⟨hcreate, hmethod⟩ := hread.accepted.mp ⟨o, ho⟩
      exact ⟨hcreate, fun text htext => (hmethod text htext).imp (hplain o ho text htext)⟩
    · rintro ⟨hcreate, hmethod⟩
      exact hread.accepted.mpr ⟨hcreate, fun text htext =>
        (hmethod text htext).imp fun _ => NamesMethod.spells⟩
    · intro o ho
      obtain ⟨hcreate, howner, hgroup, hmethod⟩ := hread.set o ho
      refine ⟨hcreate, howner, hgroup, ?_⟩
      cases htext : Table.get? e compressionKey with
      | none =>
        rw [htext] at hmethod
        generalize o.compression = method at hmethod
        cases hmethod
        exact .none
      | some text =>
        rw [htext] at hmethod
        generalize o.compression = method at hmethod
        cases hmethod with
        | some hm => exact .some (hplain o ho text htext _ hm)
    · intro hcreate text htext hno
      refine hread.method_refused hcreate text htext ?_
      rintro ⟨m, hm⟩
      have hall : ∀ text', Table.get? e compressionKey = some text' →
          ∃ m, SpellsMethod text' m := by
        intro text' htext'
        rw [htext] at htext'
        cases htext'
        exact ⟨m, hm⟩
      obtain ⟨o, ho⟩ := hread.accepted.mpr ⟨hcreate, hall⟩
      exact hno ⟨m, hplain o ho text htext m hm⟩

theorem ofEnv_congr {e' : Env} (h : ∀ k ∈ keys, Table.get? e k = Table.get? e' k) :
    ofEnv e = ofEnv e' := by
  have hkey : ∀ k, k ∈ keys → Table.get? e k = Table.get? e' k := h
  unfold ofEnv readField
  rw [hkey createKey (by decide), hkey ownerKey (by decide), hkey groupKey (by decide),
    hkey compressionKey (by decide)]

theorem get?_merge {e : Env} (he : (Table.keys e).Nodup) (d : Env) (k : String) :
    Table.get? (Env.merge d e) k = (Table.get? e k).or (Table.get? d k) := by
  induction e generalizing d with
  | nil => rfl
  | cons kv e ih =>
    obtain ⟨l, v⟩ := kv
    have hkeys : l ∉ Table.keys e ∧ (Table.keys e).Nodup := List.nodup_cons.mp he
    have hmerge : Env.merge d ((l, v) :: e) = Env.merge (Table.put d l v) e := rfl
    rw [hmerge, ih hkeys.2, Table.get?_put, Table.get?_cons]
    by_cases hk : k = l
    · have hnone : Table.get? e l = none := by
        rw [Option.eq_none_iff_forall_ne_some]
        exact fun w hw => hkeys.1 (Table.mem_keys_iff.mpr ⟨w, hw⟩)
      rw [if_pos hk, if_pos hk, hk, hnone]
      rfl
    · rw [if_neg hk, if_neg hk]

theorem nodup_keys_toEnv (o : Options) : (Table.keys (toEnv o)).Nodup := by
  obtain ⟨create, owner, group, method⟩ := o
  cases create <;> cases owner <;> cases group <;> cases method <;> exact of_decide_eq_true rfl

theorem get?_toEnv (o : Options) :
    Table.get? (toEnv o) createKey = o.create.map boolName ∧
      Table.get? (toEnv o) ownerKey = o.defaultOwner ∧
      Table.get? (toEnv o) groupKey = o.defaultGroup ∧
      Table.get? (toEnv o) compressionKey = o.compression.map Compression.name := by
  obtain ⟨create, owner, group, method⟩ := o
  cases create <;> cases owner <;> cases group <;> cases method <;> exact ⟨rfl, rfl, rfl, rfl⟩

/-- A value under its name, and others where there is none. -/
theorem rel_or {α β : Type} {r : α → β → Prop} {name : β → α} (hname : ∀ b, r (name b) b)
    {x : Option α} {y : Option β} (h : Option.Rel r x y) (z : Option β) :
    Option.Rel r ((z.map name).or x) (z.or y) := by
  cases z with
  | none => exact h
  | some b => exact .some (hname b)

/-- A table that has the texts of the options that are set, and another table's for the rest. -/
theorem ofEnv_of_overlay (hd : ofEnv d = .ok x)
    (h : ∀ k, Table.get? e k = (Table.get? (toEnv o) k).or (Table.get? d k)) :
    ofEnv e = .ok (o.laidOver x) := by
  obtain ⟨hcreate, howner, hgroup, hmethod⟩ := ofEnv_ok_iff.mp hd
  obtain ⟨hcreate', howner', hgroup', hmethod'⟩ := get?_toEnv o
  have hboolName : ∀ b, NamesBool (boolName b) b := fun _ => rfl
  have hmethodName : ∀ m : Compression, SpellsMethod m.name m := fun m =>
    @NamesMethod.spells m.name m rfl
  refine ofEnv_ok_iff.mpr ⟨?_, ?_, ?_, ?_⟩
  · rw [h, hcreate']
    exact rel_or hboolName hcreate o.create
  · rw [h, howner', ← howner]
    rfl
  · rw [h, hgroup', ← hgroup]
    rfl
  · rw [h, hmethod']
    exact rel_or hmethodName hmethod o.compression

theorem laidOver_unset (o : Options) : o.laidOver unset = o := by
  obtain ⟨create, owner, group, method⟩ := o
  cases create <;> cases owner <;> cases group <;> cases method <;> rfl

theorem ofEnv_toEnv (o : Options) : ofEnv (toEnv o) = .ok o := by
  have hempty : ofEnv ([] : Env) = .ok unset := rfl
  have hlaid := ofEnv_of_overlay (o := o) hempty fun k => (Option.or_none).symm
  rwa [laidOver_unset] at hlaid

/-- A table is read with methods named but for case, once letters outside ASCII are spelled out that
stand for ASCII letters; without the spelling out it is read alike unless it is accepted with such a
letter. Only the keys of the options count. Options are read back from the table they set. Laid over
a table that is accepted, it sets them where they are set, and that table's options elsewhere. -/
theorem ofEnv_readWith (e : Env) (o : Options) :
    ReadWith SpellsMethod e ∧
      (ReadWith NamesMethod e ↔ ¬ ∃ x text, ofEnv e = .ok x ∧
        Table.get? e compressionKey = some text ∧ spelledOut text ≠ text) ∧
      (∀ e' : Env, (∀ k ∈ keys, Table.get? e k = Table.get? e' k) → ofEnv e = ofEnv e') ∧
      ofEnv (toEnv o) = .ok o ∧
      ∀ x, ofEnv e = .ok x → ofEnv (Env.merge e (toEnv o)) = .ok (o.laidOver x) := by
  refine ⟨readWith_spells e, readWith_names_iff e, ?_, ofEnv_toEnv o, ?_⟩
  · exact fun e' => ofEnv_congr
  · exact fun x hx => ofEnv_of_overlay hx (get?_merge (nodup_keys_toEnv o) e)

/-- A table with a long s in the name of a method, and with a key of no option. -/
def longEnv : Env := [("compressionMethod", "ſtored"), ("create", "TRUE"), ("level", "9")]

theorem ofEnv_readWith_longEnv :
    ofEnv longEnv = .ok ⟨some true, none, none, some .stored⟩ ∧ ¬ ReadWith NamesMethod longEnv ∧
      (∀ k ∈ keys, Table.get? longEnv k = Table.get? (longEnv.take 2) k) ∧
      ofEnv longEnv = ofEnv (longEnv.take 2) ∧
      ofEnv (Env.merge longEnv (toEnv ⟨some false, some "x", none, none⟩)) =
        .ok ⟨some false, some "x", none, some .stored⟩ := by
  have hread : ofEnv longEnv = .ok ⟨some true, none, none, some .stored⟩ := by rfl
  have hkeys : ∀ k ∈ keys, Table.get? longEnv k = Table.get? (longEnv.take 2) k := by decide
  obtain ⟨-, hnames, hcongr, -, hlaid⟩ :=
    ofEnv_readWith longEnv ⟨some false, some "x", none, none⟩
  refine ⟨hread, ?_, hkeys, hcongr _ hkeys, hlaid _ hread⟩
  exact fun h => hnames.mp h ⟨_, "ſtored", hread, rfl, by decide⟩

end Options

end ZipMount
