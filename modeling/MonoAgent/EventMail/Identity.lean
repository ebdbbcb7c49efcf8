import Mathlib
import MonoAgent.Lib.Exec
import MonoAgent.Lib.Text
import MonoAgent.Session.Message

/-!
# Identities of mail

An envelope is named by its kind, source, item and revision, joined by colons.
The joined name does not say where one field ends and the next begins: moving a
colon from one field to the next gives the same name.
-/

namespace MonoAgent.EventMail

open MonoAgent.Lib MonoAgent.Session

inductive MailKind where
  | content | alert | context
deriving DecidableEq, Repr

def MailKind.text : MailKind → String
  | .content => "content"
  | .alert => "alert"
  | .context => "context"

/-- `_identity`: a string that is not empty, with no white space at its ends. -/
def identity (field value : String) : Except Error Unit :=
  ensure (value ≠ "" ∧ strip value = value) ⟨.valueError, field ++ " 必须是非空且无首尾空白的字符串"⟩

/-- What an item is known by. -/
structure ContentKey where
  sourceId : String
  itemId : String
  revision : String
deriving DecidableEq, Repr

/-- What an envelope is known by. -/
structure MailKey where
  kind : MailKind
  sourceId : String
  itemId : String
  revision : String
deriving DecidableEq, Repr

def ContentKey.mail (k : ContentKey) : MailKey := ⟨.content, k.sourceId, k.itemId, k.revision⟩

/-- `_mail_id`. -/
def mailId (kind : MailKind) (sourceId itemId revision : String) : String :=
  kind.text ++ ":" ++ sourceId ++ ":" ++ itemId ++ ":" ++ revision

def MailKey.id (k : MailKey) : String := mailId k.kind k.sourceId k.itemId k.revision

/-- The parts are accepted by `_identity`. -/
def MailKey.Accepted (k : MailKey) : Prop :=
  ∀ value ∈ [k.sourceId, k.itemId, k.revision], value ≠ "" ∧ strip value = value

instance (k : MailKey) : Decidable k.Accepted := inferInstanceAs (Decidable (∀ _ ∈ _, _))

/-! ## Where the colons are -/

/-- The source of `a` ends where that of `b` does, and its item goes on past a colon
into the revision; or the source itself goes on past a colon. -/
def Shifted (a b : MailKey) : Prop :=
  a.kind = b.kind ∧ ∃ u,
    (a.sourceId = b.sourceId ∧ a.itemId = b.itemId ++ ":" ++ u ∧ b.revision = u ++ ":" ++ a.revision) ∨
    (a.sourceId = b.sourceId ++ ":" ++ u ∧
      b.itemId ++ ":" ++ b.revision = u ++ ":" ++ a.itemId ++ ":" ++ a.revision)

/-- Two texts cut at a colon are equal when they are cut at the same one, or when
one is cut further on. -/
theorem cut_eq {α : Type} {c : α} {a b x y : List α} :
    a ++ c :: x = b ++ c :: y ↔ (a = b ∧ x = y) ∨ (∃ u, a = b ++ c :: u ∧ y = u ++ c :: x) ∨
      ∃ u, b = a ++ c :: u ∧ x = u ++ c :: y := by
  constructor
  · intro h
    rcases List.append_eq_append_iff.mp h with ⟨w, hb, hx⟩ | ⟨w, ha, hy⟩
    · cases w with
      | nil =>
          rw [List.append_nil] at hb
          exact Or.inl ⟨hb.symm, (List.cons.inj hx).2⟩
      | cons d u =>
          obtain rfl := (List.cons.inj hx).1
          exact Or.inr (Or.inr ⟨u, hb, (List.cons.inj hx).2⟩)
    · cases w with
      | nil =>
          rw [List.append_nil] at ha
          exact Or.inl ⟨ha, (List.cons.inj hy).2.symm⟩
      | cons d u =>
          obtain rfl := (List.cons.inj hy).1
          exact Or.inr (Or.inl ⟨u, ha, (List.cons.inj hy).2⟩)
  · rintro (⟨rfl, rfl⟩ | ⟨u, rfl, rfl⟩ | ⟨u, rfl, rfl⟩)
    · rfl
    · simp
    · simp

/-- The characters of two strings joined by a colon. -/
theorem toList_cut (a x : String) : (a ++ ":" ++ x).toList = a.toList ++ ':' :: x.toList := by
  simp

theorem eq_cut {a b u : String} : a = b ++ ":" ++ u ↔ a.toList = b.toList ++ ':' :: u.toList := by
  rw [← String.toList_inj, toList_cut]

theorem string_cut_eq {a b x y : String} :
    a ++ ":" ++ x = b ++ ":" ++ y ↔ (a = b ∧ x = y) ∨ (∃ u, a = b ++ ":" ++ u ∧ y = u ++ ":" ++ x) ∨
      ∃ u, b = a ++ ":" ++ u ∧ x = u ++ ":" ++ y := by
  rw [← String.toList_inj, toList_cut, toList_cut, cut_eq, String.toList_inj, String.toList_inj]
  refine or_congr Iff.rfl (or_congr ?_ ?_)
  · constructor
    · rintro ⟨u, ha, hy⟩
      exact ⟨String.ofList u, eq_cut.mpr (by rw [String.toList_ofList, ha]),
        eq_cut.mpr (by rw [String.toList_ofList, hy])⟩
    · rintro ⟨u, ha, hy⟩
      exact ⟨u.toList, eq_cut.mp ha, eq_cut.mp hy⟩
  · constructor
    · rintro ⟨u, hb, hx⟩
      exact ⟨String.ofList u, eq_cut.mpr (by rw [String.toList_ofList, hb]),
        eq_cut.mpr (by rw [String.toList_ofList, hx])⟩
    · rintro ⟨u, hb, hx⟩
      exact ⟨u.toList, eq_cut.mp hb, eq_cut.mp hx⟩

/-- The name of a kind holds no colon. -/
theorem kind_cut {k : MailKind} {t u : String} : k.text ≠ t ++ ":" ++ u := by
  intro h
  have hmem : ':' ∈ k.text.toList := by
    rw [h, toList_cut]
    simp
  cases k <;> exact absurd hmem (by decide)

theorem kind_text {k k' : MailKind} (h : k.text = k'.text) : k = k' := by
  cases k <;> cases k' <;> first | rfl | exact absurd h (by decide)

theorem MailKey.id_eq (k : MailKey) :
    k.id = k.kind.text ++ ":" ++ (k.sourceId ++ ":" ++ (k.itemId ++ ":" ++ k.revision)) := by
  simp only [MailKey.id, mailId, String.append_assoc]

/-- A shift keeps the name. -/
theorem id_eq_of_shifted {a b : MailKey} (h : Shifted a b) : a.id = b.id := by
  obtain ⟨hkind, u, ⟨hsource, hitem, hrevision⟩ | ⟨hsource, hrest⟩⟩ := h
  · rw [MailKey.id, MailKey.id, mailId, mailId, hkind, hsource, hitem, hrevision]
    simp only [String.append_assoc]
  · have hrest : b.itemId ++ (":" ++ b.revision) = u ++ (":" ++ (a.itemId ++ (":" ++ a.revision))) := by
      simpa only [String.append_assoc] using hrest
    rw [MailKey.id_eq, MailKey.id_eq, hkind, hsource]
    simp only [String.append_assoc, hrest]

/-- Two keys have one name when they are one key, or when one is shifted to the other. -/
theorem id_eq_iff {a b : MailKey} : a.id = b.id ↔ a = b ∨ Shifted a b ∨ Shifted b a := by
  constructor
  · intro h
    rw [MailKey.id_eq, MailKey.id_eq] at h
    obtain ⟨hkind, h⟩ | ⟨u, h, _⟩ | ⟨u, h, _⟩ := string_cut_eq.mp h
    · have hkind := kind_text hkind
      obtain ⟨hsource, h⟩ | ⟨u, hsource, h⟩ | ⟨u, hsource, h⟩ := string_cut_eq.mp h
      · obtain ⟨hitem, hrevision⟩ | ⟨u, hitem, hrevision⟩ | ⟨u, hitem, hrevision⟩ :=
          string_cut_eq.mp h
        · left
          cases a
          cases b
          cases hkind
          cases hsource
          cases hitem
          cases hrevision
          rfl
        · exact Or.inr (Or.inl ⟨hkind, u, Or.inl ⟨hsource, hitem, hrevision⟩⟩)
        · exact Or.inr (Or.inr ⟨hkind.symm, u, Or.inl ⟨hsource.symm, hitem, hrevision⟩⟩)
      · refine Or.inr (Or.inl ⟨hkind, u, Or.inr ⟨hsource, ?_⟩⟩)
        simpa only [String.append_assoc] using h
      · refine Or.inr (Or.inr ⟨hkind.symm, u, Or.inr ⟨hsource, ?_⟩⟩)
        simpa only [String.append_assoc] using h
    · exact absurd h kind_cut
    · exact absurd h kind_cut
  · rintro (rfl | h | h)
    · rfl
    · exact id_eq_of_shifted h
    · exact (id_eq_of_shifted h).symm

end MonoAgent.EventMail
