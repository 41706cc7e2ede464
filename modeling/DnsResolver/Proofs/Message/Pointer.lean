import DnsResolver.Proofs.Message.Query
import DnsResolver.Proofs.Message.RoundTrip
import DnsResolver.Proofs.Name.Reverse

namespace DnsResolver

/-!
# Questions for the name of an address

The question for the name of an address can be asked for every address, and the address can be told
from what is written of it.

* `Encodes.build` — what is written on its own is read on its own.
* `Question.ordinary_pointer`, `Question.address_of_fold` — such a question may be written, and the
  address is still read from its name when the case of the letters is lost.
* `Question.address_pointer` — the address is read back from a spelling of its reverse name, from a
  question and from a message with that question in it.
-/

/-- What a step writes at the start of a message, a step that it encodes for reads there. -/
theorem Encodes.build {β : Type} {write : Writing Unit} {read : Reader β} {good : β → Prop}
    {room : Nat} (h : Encodes write read good room) (hroom : room < Reader.offsetLimit)
    (compress : Bool) :
    ∃ octets value, Writer.build write compress = .ok octets
      ∧ Reader.run read octets = .ok value ∧ good value := by
  obtain ⟨after, hwrite, -, -, hsize, hlegible⟩ :=
    h.written [] (Writer.empty compress) (Writer.sound_empty compress)
  have hempty : (Writer.empty compress).size = 0 := rfl
  -- Reading goes over what was written and nothing else, so the room is enough.
  have hbounded : after.octets.size < Reader.offsetLimit := by
    change after.size < _
    omega
  obtain ⟨value, hread, hgood⟩ :=
    hlegible after.octets ⟨fun i octet hi => hi, Nat.le_refl _, hbounded⟩
  refine ⟨after.octets, value, ?_, ?_, hgood⟩
  · rw [Writer.build, hwrite]
  · change read after.octets 0 = _ at hread
    rw [Reader.run, hread]

/-- However many trailing dots are added, a name is compared in the same form. -/
theorem Name.canonical_append_dots (name : Name) (dots : Nat) :
    canonical ⟨name.chars ++ List.replicate dots '.'⟩ = name.canonical := by
  have hdropped : dropDots ⟨name.chars ++ List.replicate dots '.'⟩ = name.dropDots := by
    rw [dropDots, dropDots, Text.dropEndWhile, Text.dropEndWhile, List.reverse_append,
      List.reverse_replicate, List.dropWhile_append_of_pos]
    exact fun c hc => beq_iff_eq.mpr (List.eq_of_mem_replicate hc)
  rw [canonical, canonical, hdropped]

namespace Question

theorem pointer_eq (ip : Ip) : pointer ip = ⟨Name.reverse ip, .ptr, .internet⟩ := by
  rw [pointer, about, Name.dropDot_of_ordinary (Name.ordinary_reverse ip)]

theorem ordinary_pointer (ip : Ip) : (pointer ip).Ordinary := by
  rw [pointer_eq]
  exact ⟨Name.ordinary_reverse ip, 1, rfl⟩

/-- A question for the name of an address that is the same up to case is for the same address. -/
theorem address_of_fold {ip : Ip} {question : Question} (h : question.fold = (pointer ip).fold) :
    question.type = .ptr ∧ question.recordClass = .internet ∧ question.name.address = .ok ip := by
  rw [pointer_eq] at h
  injection h with hname htype hclass
  refine ⟨htype, hclass, Name.address_of_canonical ?_⟩
  rw [Name.canonical_eq_of_sameAs ((Name.sameAs_iff _ _).mpr hname), Name.canonical_reverse]

/-- **Reverse names are read back.** An address is read from its reverse name in any case and with
    any number of trailing dots.  The question for that name can be written behind anything; read on
    its own, or as one of the questions of a message, it still is for that address. -/
theorem address_pointer (ip : Ip) :
    (∀ (name : Name) (dots : Nat), name.sameAs (Name.reverse ip) = true →
        Name.address ⟨name.chars ++ List.replicate dots '.'⟩ = .ok ip)
      ∧ (∀ writer, ∃ after, (pointer ip).write writer = .ok () after)
      ∧ (∀ compress, ∃ octets question, Writer.build (pointer ip).write compress = .ok octets
          ∧ Reader.run read octets = .ok question
          ∧ question.type = .ptr ∧ question.recordClass = .internet
          ∧ question.name.address = .ok ip)
      ∧ ∀ (now : Instant) (message : Message), message.Ordinary →
          (∀ question ∈ message.questions, ∃ code, question.type = .ofCode code) →
          ∃ octets found, message.encode now = .ok octets ∧ Message.decode octets = .ok found
            ∧ ∀ i : Nat, message.questions[i]? = some (pointer ip) →
                ∃ question, found.questions[i]? = some question
                  ∧ question.type = .ptr ∧ question.recordClass = .internet
                  ∧ question.name.address = .ok ip := by
  have hptr : ∃ code, (pointer ip).type = .ofCode code := ⟨12, rfl⟩
  refine ⟨fun name dots hsame => ?_, fun writer => ?_, fun compress => ?_, ?_⟩
  · apply Name.address_of_canonical
    rw [Name.canonical_append_dots, Name.canonical_eq_of_sameAs hsame, Name.canonical_reverse]
  · rw [write_apply,
      Label.checkAll_of_ordinary (Name.ordinary_wireLabels (ordinary_pointer ip).name)]
    exact ⟨_, rfl⟩
  · obtain ⟨octets, question, hwrite, hread, hfold⟩ :=
      (encodes (ordinary_pointer ip) hptr).build (by decide) compress
    exact ⟨octets, question, hwrite, hread, address_of_fold hfold⟩
  · intro now message h htypes
    have hquestions := h.questions_le
    have hanswers := h.answers_le
    have hauthorities := h.authorities_le
    have hadditionals := h.additionals_le
    have hlimit : Reader.offsetLimit = 18446744073709551616 := rfl
    obtain ⟨octets, found, hwrite, hread, -, hsections, -⟩ :=
      (Message.encodes now h htypes).build (by omega) true
    -- What is read has the sections of the message, up to the case of letters.
    refine ⟨octets, found, ?_, hread, fun i hi => ?_⟩
    · rw [Message.encode, Message.sizedHeader_eq h]
      exact hwrite
    · have hfold := congrArg (·[i]?) hsections.questions
      simp only [List.getElem?_map, hi, Option.map_some] at hfold
      obtain ⟨question, hquestion, hsame⟩ := Option.map_eq_some_iff.mp hfold
      exact ⟨question, hquestion, address_of_fold hsame⟩

/-- An address with a letter in each of the digits of its last octet. -/
def lettered : Ip := .v6 ⟨[0x2001, 0xdb8, 0, 0, 0, 0, 0, 0xab], rfl⟩

/-- Its reverse name in capitals, with two dots behind it, and a query for it. -/
theorem address_pointer_lettered :
    Name.sameAs ⟨(Name.reverse lettered).chars.map Char.toUpper⟩ (Name.reverse lettered) = true
      ∧ Name.address ⟨(Name.reverse lettered).chars.map Char.toUpper ++ ['.', '.']⟩ = .ok lettered
      ∧ (Message.query 7 (pointer lettered) true).Ordinary
      ∧ ∃ octets found, Client.encodeQuery 7 (pointer lettered) true = .ok octets
          ∧ Message.decode octets = .ok found
          ∧ ∃ question, found.questions[0]? = some question
              ∧ question.name.address = .ok lettered := by
  have hsame : Name.sameAs ⟨(Name.reverse lettered).chars.map Char.toUpper⟩
      (Name.reverse lettered) = true := by
    decide
  have hordinary : (Message.query 7 (pointer lettered) true).Ordinary :=
    ⟨⟨⟨0, rfl⟩, 0, rfl⟩, fun _ hquestion => List.mem_singleton.mp hquestion ▸ ordinary_pointer _,
      fun _ hrecord => absurd hrecord List.not_mem_nil, rfl, by decide, by decide, by decide,
      by decide⟩
  have htypes : ∀ question ∈ (Message.query 7 (pointer lettered) true).questions,
      ∃ code, question.type = .ofCode code := fun _ hquestion =>
    List.mem_singleton.mp hquestion ▸ ⟨12, rfl⟩
  obtain ⟨hname, -, -, hmessage⟩ := address_pointer lettered
  obtain ⟨octets, found, hwrite, hread, hquestions⟩ := hmessage 0 _ hordinary htypes
  obtain ⟨question, hquestion, -, -, haddress⟩ := hquestions 0 rfl
  exact ⟨hsame, hname _ 2 hsame, hordinary, octets, found, hwrite, hread, question, hquestion,
    haddress⟩

end Question

end DnsResolver
