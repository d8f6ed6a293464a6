/-!
# Bindings

A **binding** is a variable whose binder has been opened: an identity together with the name it is
shown under. The name is for display only. Two variables called `x` are two bindings, told apart by
their identities.

Identities come from a **supply**, a counter that every computation which opens a binder threads
through. All bindings that are around are minted from one supply, so that an identity belongs to one
of them, and with it goes one name (`Supply.Minted`). To compare two of them is to compare their
identities.
-/
namespace DepLang

/-- A free variable: an identity and a display name. -/
structure Binding where
  id : Nat
  name : String
deriving DecidableEq, Repr

/-- The identities from `next` on are unused. -/
structure Supply where
  next : Nat := 0
deriving DecidableEq, Repr

namespace Supply

/-- Mints a binding shown as `name`, and returns the supply without its identity. -/
def mint (s : Supply) (name : String) : Binding × Supply :=
  (⟨s.next, name⟩, ⟨s.next + 1⟩)

/-- The supply is behind all of these bindings, and no two of them share an identity. -/
structure Minted (s : Supply) (S : Binding → Prop) : Prop where
  below : ∀ b, S b → b.id < s.next
  eq_of_id_eq : ∀ b c, S b → S c → b.id = c.id → b = c

namespace Minted

theorem none (s : Supply) : s.Minted fun _ => False where
  below _ hb := hb.elim
  eq_of_id_eq _ _ hb _ _ := hb.elim

theorem mint {s : Supply} {S : Binding → Prop} (h : s.Minted S) (name : String) :
    (s.mint name).2.Minted fun b => S b ∨ b = (s.mint name).1 where
  below b hb := by
    rcases hb with hb | rfl
    · exact Nat.lt_succ_of_lt (h.below b hb)
    · exact Nat.lt_succ_self s.next
  eq_of_id_eq b c hb hc he := by
    rcases hb with hb | rfl
    · rcases hc with hc | rfl
      · exact h.eq_of_id_eq b c hb hc he
      · exact absurd he (Nat.ne_of_lt (h.below b hb))
    · rcases hc with hc | rfl
      · exact absurd he.symm (Nat.ne_of_lt (h.below c hc))
      · rfl

end Minted

end Supply

end DepLang
