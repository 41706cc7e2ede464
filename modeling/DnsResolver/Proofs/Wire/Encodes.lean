import DnsResolver.Proofs.Name.Written

namespace DnsResolver

open Writer (Extends Legible Continued)

/-!
# Writing steps and the reading steps that undo them

A writing step *encodes* for a reading step when, from any sound writer, it succeeds, writes
behind what is there, keeps the writer sound and leaves something that the reading step gets
through.  Steps one after the other encode for steps one after the other, so a format needs one
short proof for each of its parts.

* `Encodes.bind`, `Encodes.map`, `Encodes.many` — parts in sequence.
* `Encodes.octets`, `Encodes.word`, `Encodes.long`, `Encodes.name` — the parts there are.
-/

/-- What `write` writes in at most `room` octets, `read` reads with a value as it should be. -/
structure Encodes {β : Type} (write : Writing Unit) (read : Reader β) (good : β → Prop)
    (room : Nat) : Prop where
  possible : ∃ value, good value
  written : ∀ pending before, Writer.Sound pending before →
    ∃ after, write before = .ok () after ∧ Extends before after ∧ after.Sound pending
      ∧ after.size ≤ before.size + room ∧ Legible pending before after read good

namespace Encodes

variable {α β γ : Type} {write write' : Writing Unit} {read : Reader β} {good : β → Prop}
  {room room' : Nat}

/-- Nothing is written, and nothing is read. -/
theorem pure {value : β} (h : good value) :
    Encodes (Pure.pure ()) (Pure.pure value) good 0 where
  possible := ⟨value, h⟩
  written _ before hsound :=
    ⟨before, rfl, Extends.refl before, hsound, Nat.le_refl _, fun _ _ => ⟨value, rfl, h⟩⟩

/-- One part after the other. How the second one is read may depend on the value of the first,
    but not how it is written. -/
theorem bind {read' : β → Reader γ} {good' : γ → Prop} (h : Encodes write read good room)
    (hnext : ∀ value, good value → Encodes write' (read' value) good' room') :
    Encodes (write >>= fun _ => write') (read >>= read') good' (room + room') := by
  obtain ⟨value₀, hvalue₀⟩ := h.possible
  refine ⟨(hnext value₀ hvalue₀).possible, fun pending before hsound => ?_⟩
  obtain ⟨middle, hwrite, hext, hmiddle, hroom, hlegible⟩ := h.written pending before hsound
  obtain ⟨after, hwrite', hext', hafter, hroom', _⟩ :=
    (hnext value₀ hvalue₀).written pending middle hmiddle
  refine ⟨after, ?_, hext.trans hext', hafter, by omega, ?_⟩
  · show EStateM.bind write (fun _ => write') before = _
    rw [EStateM.bind, hwrite]
    exact hwrite'
  · refine hlegible.bind hext' fun value hvalue => ?_
    -- The same step writes for every value, so it is the same writer that comes out.
    obtain ⟨after', hwrite'', _, _, _, hlegible'⟩ :=
      (hnext value hvalue).written pending middle hmiddle
    have hsame : after = after' := by
      rw [hwrite'] at hwrite''
      injection hwrite''
    rw [hsame]
    exact hlegible'

/-- Making something else of what is read. -/
theorem map {good' : γ → Prop} (h : Encodes write read good room) (f : β → γ)
    (hgood : ∀ value, good value → good' (f value)) :
    Encodes write (read >>= fun value => Pure.pure (f value)) good' room := by
  obtain ⟨value, hvalue⟩ := h.possible
  refine ⟨⟨f value, hgood value hvalue⟩, fun pending before hsound => ?_⟩
  obtain ⟨after, hwrite, hext, hafter, hroom, hlegible⟩ := h.written pending before hsound
  exact ⟨after, hwrite, hext, hafter, hroom, hlegible.map f hgood⟩

/-- More room than is needed. -/
theorem mono (h : Encodes write read good room) (hroom : room ≤ room') :
    Encodes write read good room' := by
  refine ⟨h.possible, fun pending before hsound => ?_⟩
  obtain ⟨after, hwrite, hext, hafter, hsize, hlegible⟩ := h.written pending before hsound
  exact ⟨after, hwrite, hext, hafter, by omega, hlegible⟩

/-! ### Octets and numbers -/

theorem octets (octets : Octets) :
    Encodes (modify fun writer => writer.putOctets octets) (Reader.octets octets.size)
      (· = octets) octets.size := by
  refine ⟨⟨octets, rfl⟩, fun pending before hsound => ?_⟩
  have hext := Writer.extends_putOctets before octets
  have hsize := Writer.size_putOctets before octets
  refine ⟨before.putOctets octets, rfl, hext, hsound.of_extends hext rfl, by omega, ?_⟩
  intro data hdata
  have hheld := (Writer.holds_putOctets hsound.pending_lt octets).mono hdata.known
  have hinside := hdata.size_le
  rw [hsize] at hinside ⊢
  exact ⟨octets, Reader.octets_of_holds hheld hinside hdata.bounded, rfl⟩

theorem word (n : UInt16) :
    Encodes (modify fun writer => writer.putWord n) Reader.word (· = n) 2 := by
  have hput : (fun writer : Writer => writer.putWord n)
      = fun writer => writer.putOctets #[(Wire.wordOctets n).1, (Wire.wordOctets n).2] :=
    funext fun writer => Writer.putWord_eq writer n
  rw [hput]
  refine (octets _).map _ fun part hpart => ?_
  rw [hpart]
  exact Wire.word_wordOctets n

theorem long (n : UInt32) :
    Encodes (modify fun writer => writer.putLong n) Reader.long (· = n) 4 := by
  have hput : (fun writer : Writer => writer.putLong n)
      = fun writer => writer.putOctets (Wire.longOctets n).toArray :=
    funext fun writer => Writer.putLong_eq writer n
  rw [hput]
  obtain ⟨a, b, c, d, hoctets, hlong⟩ := Wire.long_longOctets n
  rw [hoctets]
  refine (octets _).map _ fun part hpart => ?_
  rw [hpart]
  exact hlong

theorem name {name : Name} (h : name.Ordinary) :
    Encodes name.write Name.read (fun found => found.fold = name.fold) 8193 :=
  ⟨⟨name, rfl⟩, fun _ _ hsound => Name.write_spec h hsound⟩

/-! ### Many parts of one kind -/

/-- What is read after what was `seen` is appended to it. -/
theorem manyAfter {δ : Type} {write : α → Writing Unit} {f : β → δ} {g : α → δ} {entries : List α}
    (h : ∀ entry ∈ entries, Encodes (write entry) read (fun value => f value = g entry) room)
    (seen : List β) :
    Encodes (entries.forM write) (Reader.manyAfter read entries.length seen)
      (fun values => values.map f = seen.reverse.map f ++ entries.map g)
      (entries.length * room) := by
  induction entries generalizing seen with
  | nil =>
    rw [List.length_nil, Nat.zero_mul]
    exact Encodes.pure (by simp)
  | cons entry entries ih =>
    have hhere := h entry List.mem_cons_self
    have hrest := ih fun other hother => h other (List.mem_cons_of_mem _ hother)
    have hroom : (entry :: entries).length * room = room + entries.length * room := by
      rw [List.length_cons, Nat.add_mul, Nat.one_mul, Nat.add_comm]
    rw [hroom]
    refine hhere.bind fun value hvalue => ?_
    have hgood : ∀ values : List β,
        (values.map f = (value :: seen).reverse.map f ++ entries.map g)
          = (values.map f = seen.reverse.map f ++ (entry :: entries).map g) := by
      intro values
      simp [hvalue]
    have hseen := hrest (value :: seen)
    simp only [hgood] at hseen
    exact hseen

/-- Entries that are read with the same step are read in their order. -/
theorem many {δ : Type} {write : α → Writing Unit} {f : β → δ} {g : α → δ} {entries : List α}
    (h : ∀ entry ∈ entries, Encodes (write entry) read (fun value => f value = g entry) room) :
    Encodes (entries.forM write) (Reader.many read entries.length)
      (fun values => values.map f = entries.map g) (entries.length * room) :=
  manyAfter h []

end Encodes

end DnsResolver
