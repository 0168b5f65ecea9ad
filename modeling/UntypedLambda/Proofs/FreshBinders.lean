import Mathlib.Data.List.Nodup
import UntypedLambda.Binder

namespace UntypedLambda

structure Supply.Draws (supply : Supply) (bs : List Binder) (rest : Supply) : Prop where
  serials : bs.map Binder.serial = List.range' supply.next bs.length
  next : rest.next = supply.next + bs.length

namespace Supply

variable {supply mid rest : Supply} {bs cs : List Binder}

theorem draws_nil (supply : Supply) : supply.Draws [] supply := ⟨rfl, rfl⟩

theorem Draws.cons {n : Name} (h : (supply.fresh n).2.Draws bs rest) :
    supply.Draws ((supply.fresh n).1 :: bs) rest where
  serials := by
    rw [List.map_cons, h.serials, List.length_cons, List.range'_succ]
    rfl
  next := by
    have hnext : (supply.fresh n).2.next = supply.next + 1 := rfl
    rw [h.next, hnext, List.length_cons]
    omega

theorem Draws.append (h : supply.Draws bs mid) (h' : mid.Draws cs rest) :
    supply.Draws (bs ++ cs) rest where
  serials := by
    calc (bs ++ cs).map Binder.serial
        = List.range' supply.next bs.length ++ List.range' mid.next cs.length := by
          rw [List.map_append, h.serials, h'.serials]
      _ = List.range' supply.next (bs ++ cs).length := by
          rw [h.next, List.range'_append_1, List.length_append]
  next := by
    rw [h'.next, h.next, List.length_append, Nat.add_assoc]

theorem Draws.nodup (h : supply.Draws bs rest) : bs.Nodup := by
  have hserials : (bs.map Binder.serial).Nodup := by
    rw [h.serials]
    exact List.nodup_range'
  exact List.Nodup.of_map Binder.serial hserials

theorem Draws.eq_of_nil (h : supply.Draws [] rest) : rest = supply :=
  congrArg Supply.mk h.next

theorem Draws.next_le (h : supply.Draws bs rest) {b : Binder} (hb : b ∈ bs) :
    supply.next ≤ b.serial := by
  have hserial : b.serial ∈ bs.map Binder.serial := List.mem_map_of_mem hb
  rw [h.serials, List.mem_range'_1] at hserial
  exact hserial.1

end Supply

end UntypedLambda
