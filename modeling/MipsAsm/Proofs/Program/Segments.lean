import MipsAsm.Proofs.Memory.Overlap
import MipsAsm.Proofs.Memory.Replay
import MipsAsm.Proofs.Program.Run

/-! # Segments of finished programs

Whatever sources were added, and whether or not they failed, the tracks of the memory are in order
and only the segment opened last in each may be empty. Finishing a run writes bytes and sets the
entry point, which changes no track.
-/

namespace MipsAsm

open Memory (Image SegmentKind)

namespace Memory.Image

/-- An image whose tracks are in order, with no empty segment but the latest of each. -/
structure Kempt (m : Image) : Prop where
  charted : ∃ log, m.Charted log
  tidy : ∀ kind, (m.track kind).Tidy

theorem Kempt.pairwise_start_le {m : Image} (hKempt : m.Kempt) (kind : SegmentKind) :
    (m.track kind).segments.Pairwise fun a b => a.start ≤ b.start := by
  obtain ⟨log, hCharted⟩ := hKempt.charted
  exact List.pairwise_map.mpr ((hCharted.ordered kind).entries.imp Opened.Before.start_le)

theorem Retracked.tidy {m m' : Image} {opening : Option (SegmentKind × UInt32)}
    (hStep : Retracked m m' opening) (hTidy : ∀ kind, (m.track kind).Tidy) :
    ∀ kind, (m'.track kind).Tidy := by
  intro k
  cases hStep with
  | opened kind start hOpened hSame hOther =>
    by_cases hKind : k = kind
    · subst hKind
      rw [hSame]
      exact (hTidy k).openAt start _
    · rw [hOther k hKind]
      exact hTidy k
  | extended kind stop hOpened hSame hOther =>
    by_cases hKind : k = kind
    · subst hKind
      rw [hSame]
      exact (hTidy k).extend stop
    · rw [hOther k hKind]
      exact hTidy k
  | kept hOpened hSame =>
    rw [hSame k]
    exact hTidy k

theorem lasting_tidy : Lasting fun a _ => ∀ kind, (a.memory.track kind).Tidy :=
  .of_memory (Q := fun m => ∀ kind, (m.track kind).Tidy)
    (fun hTidy s address => (Assembly.retracked_openSegment s _ address).tidy hTidy)
    (fun hTidy s stop => (Assembly.retracked_extendSegment s _ stop).tidy hTidy)

end Memory.Image

/-! ## Runs -/

namespace Run

theorem parseSource_assembly (r : Run) (name text : String) :
    (r.parseSource name text).2.assembly =
      (r.assembly.parse r.sources.length (Token.linesOfText text)).2 := by
  rw [parseSource]
  split <;> rename_i hParse <;> rw [hParse]

theorem tidy_addAll (options : Options) (calls : List (String × Option String)) :
    ∀ kind, (((start options).addAll calls).assembly.memory.track kind).Tidy := by
  refine addAll_induction (I := fun r => ∀ kind, (r.assembly.memory.track kind).Tidy) ?_ calls ?_
  · intro r name text _ hTidy
    rw [parseSource_assembly]
    exact @Lasting.parse _ Image.lasting_tidy (fun h => h) r.assembly [] hTidy _ _
  · rintro (_ | _) <;> exact Memory.Track.tidy_empty

theorem kempt_of_finish {options : Options} {calls : List (String × Option String)}
    {program : Program} (hFinish : ((start options).addAll calls).finish = .ok program) :
    program.memory.Kempt := by
  obtain ⟨_, hReached⟩ := exists_reached options calls
  obtain ⟨_, hCharted⟩ := hReached.sound.charted
  obtain ⟨memory, hStore, hMemory, _⟩ := finish_ok hFinish
  rw [hMemory, Store.items_eq hStore]
  have hTidy := tidy_addAll options calls
  exact ⟨⟨_, hCharted.step (.of_eq rfl rfl rfl)⟩, Image.Retracked.tidy (.of_eq rfl rfl rfl) hTidy⟩

end Run

end MipsAsm
