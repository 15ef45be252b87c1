import Mathlib.Logic.Function.Basic
import Tnetacle.Gui.Qt
import Tnetacle.Library.CString
import Tnetacle.Library.Run

/-! # The contacts of the graphical client

`ModelContact` keeps the contacts, and the controller drives it. What it keeps is compared
with a plain map from names to keys and addresses, on which every accepted operation has
the effect its name says.
-/

namespace Tnetacle.Gui

open ByteOrder CString Runs

/-! ## Texts as C strings -/

/--
How Qt converts between a text and bytes. This depends on the codec that is set, but all of
them agree on ASCII.
-/
structure Codec where
  toStdString : QString → List Byte
  fromAscii : Str → QString
  toStdString_ascii : ∀ s, (∀ c ∈ s, c.toNat < 128) → toStdString s = s.map (·.setWidth 8)
  fromAscii_ascii : ∀ s, (∀ b ∈ s, b.toNat < 128) → fromAscii s = s.map (·.setWidth 16)

namespace Codec

variable (C : Codec)

/-- `strdup(s.toStdString().c_str())`, which ends at the first NUL. -/
def cStr (s : QString) : Str := ofMemory (C.toStdString s)

/-- `QString::append` of a `char *` to an empty text; a null pointer adds nothing. -/
def append : Option Str → QString
  | none => []
  | some s => C.fromAscii s

def Kept (s : QString) : Prop := C.append (some (C.cStr s)) = s

theorem kept_of_ascii {s : QString} (h : ∀ c ∈ s, c ≠ 0 ∧ c.toNat < 128) : C.Kept s := by
  have hbyte : ∀ c ∈ s, (c.setWidth 8).toNat = c.toNat := by
    intro c hc
    rw [BitVec.toNat_setWidth]
    exact Nat.mod_eq_of_lt (lt_trans (h c hc).2 (by decide))
  have hzero : (0 : Byte) ∉ s.map (·.setWidth 8) := by
    intro hmem
    obtain ⟨c, hc, hc0⟩ := List.mem_map.mp hmem
    apply (h c hc).1
    apply BitVec.eq_of_toNat_eq
    rw [← hbyte c hc, hc0]
    rfl
  have hascii : ∀ b ∈ s.map (·.setWidth 8), BitVec.toNat b < 128 := by
    intro b hb
    obtain ⟨c, hc, rfl⟩ := List.mem_map.mp hb
    exact (hbyte c hc).symm ▸ (h c hc).2
  have hback : ∀ c ∈ s, (c.setWidth 8).setWidth 16 = c := by
    intro c hc
    apply BitVec.eq_of_toNat_eq
    rw [BitVec.toNat_setWidth, hbyte c hc]
    exact Nat.mod_eq_of_lt c.isLt
  rw [Kept, append, cStr, C.toStdString_ascii s fun c hc => (h c hc).2, ofMemory_eq_self hzero,
    C.fromAscii_ascii _ hascii, List.map_map]
  exact (List.map_congr_left hback).trans (List.map_id s)

end Codec

def isNameChar (c : QChar) : Bool := isLetter c || isDigit c || c = 95

/-- `Controller::checkName`, the expression `^[a-zA-Z0-9_]+$`. -/
def checkName (s : QString) : Bool := s ≠ [] && s.all isNameChar

theorem kept_of_checkName (C : Codec) {s : QString} (h : checkName s = true) : C.Kept s := by
  apply C.kept_of_ascii
  intro c hc
  have hname : isNameChar c = true :=
    List.all_eq_true.mp (Bool.and_eq_true_iff.mp h).2 c hc
  simp only [isNameChar, isLetter, isDigit, Bool.or_eq_true, Bool.and_eq_true,
    decide_eq_true_eq] at hname
  bv_omega

/-! ## What the model keeps -/

/-- The map that `ModelContact` stores under a name, with its entries `Key` and `Ip`. -/
structure Contact where
  key : QString
  ip : QString
  deriving DecidableEq

/-- `_contacts`. -/
abbrev Contacts := QString → Option Contact

/-- The names that `addContact` reads of a `struct peer`. -/
structure Peer where
  name : Option Str
  ip : Option Str
  key : Option Str

/-- `QMap::remove`, with the number of entries that were there. -/
def Contacts.remove (c : Contacts) (name : QString) : Contacts × ℕ :=
  (Function.update c name none, if (c name).isSome then 1 else 0)

/-! An operation gives the contacts it leaves and the message of the exception it throws. -/

namespace ModelContact

def addContact (C : Codec) (p : Option Peer) (c : Contacts) : Contacts × Option QString :=
  match p with
  | none => (c, some (qs "addContact: peer is not defined"))
  | some p =>
    let name := C.append p.name
    let ip := C.append p.ip
    let key := C.append p.key
    if name = [] then (c, some (qs "Error: No name"))
    else if (c name).isSome then (c, some (qs "Error: Name already exist"))
    else (Function.update c name (some ⟨key, ip⟩), none)

def delContact (param : List QString) (c : Contacts) : Contacts × Option QString :=
  match param with
  | [] => (c, some (qs "Error: missing parameter to delete a contact"))
  | name :: _ =>
    let removed := c.remove name
    if removed.2 ≠ 1 then
      (removed.1, some (qs "Error: Name (" ++ name ++ qs ") does not exist"))
    else (removed.1, none)

def editContact (param : List QString) (c : Contacts) : Contacts × Option QString :=
  match param with
  -- The vector for the new contact is filled, but the call that would add it is a comment.
  | _name :: _key :: _ip :: old :: _ => delContact [old] c
  | _ => (c, some (qs "Error: missing parameters to edit contact"))

def clear (_ : Contacts) : Contacts := fun _ => none

end ModelContact

/-! ## What the controller does with it -/

/-- The fields of `BodyAddContact`. -/
structure NewContact where
  name : QString
  key : QString
  ip : QString

/-- What `addContact` of the controller leaves, the error it shows and the value it returns. -/
structure Added where
  contacts : Contacts
  error : Option QString
  accepted : Bool

namespace Controller

/--
The view is the `QClient` that `main` sets, and `view` is its body if that is the form for a
new contact. One of the three calls of `strdup` may find no memory.
-/
def addContact (C : Codec) (view : Option NewContact) (strdup : Bool) (c : Contacts) : Added :=
  match view with
  | none => ⟨c, none, false⟩
  | some v =>
    if v.name = [] ∨ v.key = [] ∨ v.ip = [] then
      ⟨c, some (qs "One of the mandatory fields is missing"), false⟩
    else if checkName v.name = false then
      ⟨c, some (qs ("the name is not correctly formated " ++
        "(only alpha-numeric and '_' characters are allowed)")), false⟩
    else if strdup = false then
      ⟨c, some (qs "Impossible to duplicate elements"), false⟩
    else
      match ModelContact.addContact C
          (some ⟨some (C.cStr v.name), some (C.cStr v.ip), some (C.cStr v.key)⟩) c with
      | (c, some message) => ⟨c, some message, false⟩
      | (c, none) => ⟨c, none, true⟩

/-- The command for the server is written; the call of `delContact` is a comment. -/
def deleteContact (_name : QString) (c : Contacts) : Contacts := c

def disconnected (c : Contacts) : Contacts := ModelContact.clear c

end Controller

def NewContact.Valid (v : NewContact) : Prop :=
  v.key ≠ [] ∧ v.ip ≠ [] ∧ checkName v.name = true

section Operations

variable {C : Codec} {c : Contacts}

theorem addContact_accepted_iff {p : Peer} :
    (ModelContact.addContact C (some p) c).2 = none ↔
      C.append p.name ≠ [] ∧ c (C.append p.name) = none := by
  simp only [ModelContact.addContact]
  split
  · rename_i hname
    simp [hname]
  · rename_i hname
    cases hfound : c (C.append p.name) with
    | none => simp [hname]
    | some d => simp

theorem addContact_of_free {p : Peer} (hname : C.append p.name ≠ [])
    (hfree : c (C.append p.name) = none) :
    ModelContact.addContact C (some p) c =
      (Function.update c (C.append p.name) (some ⟨C.append p.key, C.append p.ip⟩), none) := by
  simp [ModelContact.addContact, hname, hfree]

theorem addContact_of_thrown {p : Option Peer}
    (h : (ModelContact.addContact C p c).2 ≠ none) : (ModelContact.addContact C p c).1 = c := by
  cases p with
  | none => rfl
  | some p =>
    simp only [ModelContact.addContact] at h ⊢
    split_ifs at h ⊢ <;> first | rfl | exact absurd rfl h

theorem delContact_present {name : QString} {rest : List QString} (h : c name ≠ none) :
    ModelContact.delContact (name :: rest) c = (Function.update c name none, none) := by
  simp [ModelContact.delContact, Contacts.remove, Option.isSome_iff_ne_none.mpr h]

theorem delContact_absent {name : QString} (rest : List QString) (h : c name = none) :
    (ModelContact.delContact (name :: rest) c).1 = c ∧
      (ModelContact.delContact (name :: rest) c).2 ≠ none := by
  have hsame : Function.update c name none = c := Function.update_eq_self_iff.mpr h.symm
  simp [ModelContact.delContact, Contacts.remove, h, hsame]

theorem controllerAdd_of_free {v : NewContact} (hv : v.Valid) (hfree : c v.name = none) :
    Controller.addContact C (some v) true c =
      ⟨Function.update c v.name
        (some ⟨C.append (some (C.cStr v.key)), C.append (some (C.cStr v.ip))⟩), none, true⟩ := by
  obtain ⟨hkey, hip, hcheck⟩ := hv
  have hname : v.name ≠ [] := of_decide_eq_true (Bool.and_eq_true_iff.mp hcheck).1
  have hkept : C.append (some (C.cStr v.name)) = v.name := kept_of_checkName C hcheck
  have hadd := addContact_of_free (C := C) (c := c)
    (p := ⟨some (C.cStr v.name), some (C.cStr v.ip), some (C.cStr v.key)⟩)
    (hkept.symm ▸ hname) (hkept.symm ▸ hfree)
  simp only [Controller.addContact, hname, hkey, hip, or_self, if_false, hcheck, hadd, hkept,
    Bool.true_eq_false]

theorem controllerAdd_refused {v : NewContact} (strdup : Bool)
    (h : ¬ (strdup = true ∧ v.Valid ∧ c v.name = none)) :
    (Controller.addContact C (some v) strdup c).contacts = c ∧
      (Controller.addContact C (some v) strdup c).accepted = false := by
  simp only [Controller.addContact]
  split_ifs with hfields hcheck hdup
  · exact ⟨rfl, rfl⟩
  · exact ⟨rfl, rfl⟩
  · exact ⟨rfl, rfl⟩
  · -- Only the model is left to refuse, because of a contact with the name.
    rw [not_or, not_or] at hfields
    rw [Bool.not_eq_false] at hcheck hdup
    have hkept : C.append (some (C.cStr v.name)) = v.name := kept_of_checkName C hcheck
    have hthrown : (ModelContact.addContact C
        (some ⟨some (C.cStr v.name), some (C.cStr v.ip), some (C.cStr v.key)⟩) c).2 ≠ none := by
      rw [Ne, addContact_accepted_iff, hkept]
      rintro ⟨-, hfree⟩
      exact h ⟨hdup, ⟨hfields.2.1, hfields.2.2, hcheck⟩, hfree⟩
    split
    · rename_i c' message hmodel
      rw [← addContact_of_thrown hthrown, hmodel]
      exact ⟨rfl, rfl⟩
    · rename_i c' hmodel
      exact absurd (congrArg Prod.snd hmodel) hthrown

end Operations

/-! ## The contacts beside a plain map -/

inductive Op where
  | addContact (p : Option Peer)
  | delContact (param : List QString)
  | editContact (param : List QString)
  | clear
  | controllerAdd (view : Option NewContact) (strdup : Bool)
  | controllerDelete (name : QString)
  | disconnected

/-- The contacts an operation leaves, and whether it is accepted: nothing is thrown, and the
controller has nothing to refuse. -/
def Op.perform (C : Codec) (c : Contacts) : Op → Contacts × Bool
  | .addContact p =>
    ((ModelContact.addContact C p c).1, (ModelContact.addContact C p c).2.isNone)
  | .delContact param =>
    ((ModelContact.delContact param c).1, (ModelContact.delContact param c).2.isNone)
  | .editContact param =>
    ((ModelContact.editContact param c).1, (ModelContact.editContact param c).2.isNone)
  | .clear => (ModelContact.clear c, true)
  | .controllerAdd view strdup =>
    ((Controller.addContact C view strdup c).contacts,
      (Controller.addContact C view strdup c).accepted)
  | .controllerDelete name => (Controller.deleteContact name c, true)
  | .disconnected => (Controller.disconnected c, true)

def Op.effect (C : Codec) (m : Contacts) : Op → Contacts
  | .addContact (some p) =>
    Function.update m (C.append p.name) (some ⟨C.append p.key, C.append p.ip⟩)
  | .delContact (name :: _) => Function.update m name none
  | .editContact (name :: key :: ip :: old :: _) =>
    Function.update (Function.update m old none) name (some ⟨key, ip⟩)
  | .clear => fun _ => none
  | .controllerAdd (some v) _ => Function.update m v.name (some ⟨v.key, v.ip⟩)
  | .controllerDelete name => Function.update m name none
  | .disconnected => fun _ => none
  -- A null pointer, too few parameters and another body are never accepted.
  | _ => m

structure Books where
  stored : Contacts := fun _ => none
  plain : Contacts := fun _ => none

def Books.Agree (s : Books) : Prop := s.stored = s.plain

def step (C : Codec) (s : Books) (op : Op) : Option Books :=
  some ⟨(op.perform C s.stored).1,
    if (op.perform C s.stored).2 then op.effect C s.plain else s.plain⟩

/-- After a deletion through the controller the name can be given to a contact. -/
def AddableAgain (C : Codec) (s : Books) : Op → Prop
  | .controllerDelete name => ∀ p : Peer, C.append p.name = name → name ≠ [] →
      (ModelContact.addContact C (some p) (Controller.deleteContact name s.stored)).2 = none
  | _ => True

/--
When an operation does to the stored contacts what it is there for: an edit that is accepted
finds the new contact as another one already, the controller deletes what is not there, and
the key and the address that are entered for a new contact come back from their C strings.
-/
def Harmless (C : Codec) (s : Books) : Op → Prop
  | .editContact (name :: key :: ip :: old :: _) =>
      s.stored old = none ∨ (name ≠ old ∧ s.stored name = some ⟨key, ip⟩)
  | .controllerAdd (some v) true =>
      v.Valid → s.stored v.name = none → C.Kept v.key ∧ C.Kept v.ip
  | .controllerDelete name => s.stored name = none
  | _ => True

section Steps

variable {C : Codec} {s t : Books} {c : Contacts}

def Op.Exact (C : Codec) (c : Contacts) (op : Op) : Prop :=
  (op.perform C c).1 = if (op.perform C c).2 then op.effect C c else c

theorem exact_of_refused {op : Op} (hsame : (op.perform C c).1 = c)
    (hrefused : (op.perform C c).2 = false) : op.Exact C c := by
  rw [Op.Exact, hsame, hrefused]
  rfl

theorem exact_of_thrown {op : Op} {e : Option QString} (hsame : (op.perform C c).1 = c)
    (he : (op.perform C c).2 = e.isNone) (hthrown : e ≠ none) : op.Exact C c := by
  apply exact_of_refused hsame
  rw [he, Bool.eq_false_iff]
  exact mt Option.isNone_iff_eq_none.mp hthrown

theorem exact_addContact (p : Option Peer) : (Op.addContact p).Exact C c := by
  cases p with
  | none => rfl
  | some p =>
    by_cases hfree : C.append p.name ≠ [] ∧ c (C.append p.name) = none
    · simp only [Op.Exact, Op.perform, addContact_of_free hfree.1 hfree.2]
      rfl
    · have hthrown := mt addContact_accepted_iff.mp hfree
      exact exact_of_thrown (addContact_of_thrown hthrown) rfl hthrown

theorem exact_delContact (param : List QString) : (Op.delContact param).Exact C c := by
  cases param with
  | nil => rfl
  | cons name rest =>
    by_cases hfound : c name = none
    · obtain ⟨hsame, hthrown⟩ := delContact_absent rest hfound
      exact exact_of_thrown hsame rfl hthrown
    · rw [Op.Exact, Op.perform, delContact_present hfound]
      rfl

/-- The new contact of an edit is there only if it has been before. -/
theorem exact_editContact_iff {name key ip old : QString} {rest : List QString} :
    (Op.editContact (name :: key :: ip :: old :: rest)).Exact C c ↔
      c old = none ∨ (name ≠ old ∧ c name = some ⟨key, ip⟩) := by
  by_cases hfound : c old = none
  · obtain ⟨hsame, hthrown⟩ := delContact_absent [] hfound
    exact iff_of_true (exact_of_thrown hsame rfl hthrown) (.inl hfound)
  · rw [Op.Exact, Op.perform, ModelContact.editContact, delContact_present hfound]
    change Function.update c old none =
      Function.update (Function.update c old none) name (some ⟨key, ip⟩) ↔ _
    rw [Function.eq_update_self_iff]
    constructor
    · intro h
      have hne : name ≠ old := by
        rintro rfl
        rw [Function.update_self] at h
        cases h
      exact .inr ⟨hne, by rwa [Function.update_of_ne hne] at h⟩
    · rintro (habsent | ⟨hne, hthere⟩)
      · exact absurd habsent hfound
      · rw [Function.update_of_ne hne, hthere]

theorem exact_controllerAdd_iff {v : NewContact} :
    (Op.controllerAdd (some v) true).Exact C c ↔
      (v.Valid → c v.name = none → C.Kept v.key ∧ C.Kept v.ip) := by
  by_cases hfree : v.Valid ∧ c v.name = none
  · rw [Op.Exact, Op.perform, controllerAdd_of_free hfree.1 hfree.2]
    change Function.update c v.name _ = Function.update c v.name _ ↔ _
    constructor
    · intro h _ _
      have hcontact := Option.some.inj (Function.update_injective c v.name h)
      exact ⟨congrArg Contact.key hcontact, congrArg Contact.ip hcontact⟩
    · intro h
      obtain ⟨hkey, hip⟩ := h hfree.1 hfree.2
      rw [hkey, hip]
  · obtain ⟨hsame, hrefused⟩ := controllerAdd_refused (C := C) true fun h => hfree h.2
    refine iff_of_true (exact_of_refused hsame hrefused) ?_
    intro hv hname
    exact absurd ⟨hv, hname⟩ hfree

theorem exact_controllerAdd_no_memory {v : NewContact} :
    (Op.controllerAdd (some v) false).Exact C c := by
  obtain ⟨hsame, hrefused⟩ := controllerAdd_refused (C := C) (c := c) (v := v) false (by simp)
  exact exact_of_refused hsame hrefused

theorem exact_controllerDelete_iff {name : QString} :
    (Op.controllerDelete name).Exact C c ↔ c name = none :=
  Function.eq_update_self_iff

theorem exact_iff_harmless (op : Op) : op.Exact C s.stored ↔ Harmless C s op := by
  cases op with
  | addContact p => exact iff_of_true (exact_addContact p) trivial
  | delContact param => exact iff_of_true (exact_delContact param) trivial
  | editContact param =>
    -- With fewer than four parameters nothing is looked at.
    rcases param with _ | ⟨name, _ | ⟨key, _ | ⟨ip, _ | ⟨old, rest⟩⟩⟩⟩
    · exact iff_of_true rfl trivial
    · exact iff_of_true rfl trivial
    · exact iff_of_true rfl trivial
    · exact iff_of_true rfl trivial
    · exact exact_editContact_iff
  | clear => exact iff_of_true rfl trivial
  | controllerAdd view strdup =>
    rcases view with _ | v
    · exact iff_of_true rfl trivial
    · cases strdup with
      | false => exact iff_of_true exact_controllerAdd_no_memory trivial
      | true => exact exact_controllerAdd_iff
  | controllerDelete name => exact exact_controllerDelete_iff
  | disconnected => exact iff_of_true rfl trivial

theorem agree_step_iff {op : Op} (hs : s.Agree) (h : step C s op = some t) :
    t.Agree ↔ Harmless C s op := by
  obtain rfl := Option.some.inj h
  rw [← exact_iff_harmless, Books.Agree, ← hs]
  rfl

theorem addableAgain_of_harmless {op : Op} (h : Harmless C s op) : AddableAgain C s op := by
  cases op with
  | controllerDelete name =>
    rintro p rfl hname
    exact addContact_accepted_iff.mpr ⟨hname, h⟩
  | _ => trivial

end Steps

/-- The stored contacts are those of the plain map, and a deleted name is free again, exactly
if every operation is harmless. -/
theorem contacts_plain_iff (C : Codec) (ops : List Op) :
    (Throughout (step C) Books.Agree {} ops ∧ Along (step C) (AddableAgain C) {} ops) ↔
      Along (step C) (Harmless C) {} ops := by
  have hiff : Throughout (step C) Books.Agree {} ops ↔ Along (step C) (Harmless C) {} ops :=
    throughout_iff_along (I := fun _ => True) (fun _ _ _ _ _ => trivial)
      (fun _ _ _ _ hs h => agree_step_iff hs h) trivial rfl
  constructor
  · rintro ⟨hagree, -⟩
    exact hiff.mp hagree
  · intro h
    exact ⟨hiff.mpr h, h.mono fun _ _ => addableAgain_of_harmless⟩

/-- The codec of Qt while none is set. -/
def latin1 : Codec where
  toStdString s := s.map fun c => if c.toNat < 256 then c.setWidth 8 else 63
  fromAscii s := s.map (·.setWidth 16)
  toStdString_ascii s h :=
    List.map_congr_left fun c hc => if_pos (lt_trans (h c hc) (by decide))
  fromAscii_ascii _ _ := rfl

/-- A contact deleted through the controller stays and cannot be added again, and an edited
one is gone. -/
theorem deleted_contact_stays :
    let bob : NewContact := ⟨qs "bob", qs "key", qs "10.0.0.2"⟩
    let delete := [.controllerAdd (some bob) true, .controllerDelete bob.name]
    let edit := [.controllerAdd (some bob) true,
      .editContact [qs "robert", bob.key, bob.ip, bob.name]]
    (∃ s, Run (step latin1) {} delete s ∧
      s.stored bob.name = some ⟨bob.key, bob.ip⟩ ∧ s.plain bob.name = none ∧
      (Controller.addContact latin1 (some bob) true s.stored).error =
        some (qs "Error: Name already exist")) ∧
    ¬ Throughout (step latin1) Books.Agree {} delete ∧
    (∃ s, Run (step latin1) {} edit s ∧
      s.stored (qs "robert") = none ∧ s.stored bob.name = none ∧
      s.plain (qs "robert") = some ⟨bob.key, bob.ip⟩) ∧
    ¬ Throughout (step latin1) Books.Agree {} edit := by
  intro bob delete edit
  have hdelete : Run (step latin1) {} delete _ := .cons rfl (.cons rfl (.nil _))
  have hedit : Run (step latin1) {} edit _ := .cons rfl (.cons rfl (.nil _))
  refine ⟨⟨_, hdelete, by decide, by decide, by decide⟩, fun h => ?_,
    ⟨_, hedit, by decide, by decide, by decide⟩, fun h => ?_⟩
  · exact absurd (congrFun (h.last hdelete) bob.name) (by decide)
  · exact absurd (congrFun (h.last hedit) (qs "robert")) (by decide)

end Tnetacle.Gui
