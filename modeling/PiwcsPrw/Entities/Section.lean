/-
# Sections and destinations

`include/piwcsprwmodel/section.h` and `src/section.cpp`.

A section names the nodes at its two ends, `ID_NULL` standing for none.  Its
destination, if it has one, is owned through a `std::unique_ptr`; destinations
are immutable, so a value serves for the pointer.
-/

import PiwcsPrw.Entities.Identifier

namespace PiwcsPrw

/-- `Section::AllowedTravel`. -/
inductive AllowedTravel
  | NONE
  | UNIDIR
  | BIDIR
  deriving DecidableEq, Repr

/-- `Destination`. -/
@[ext] structure Destination extends HasMetadata where
  m_address : Bytes
  m_name : Bytes
  deriving DecidableEq

/-- The constructor `Destination(Address, Name)`. -/
def Destination.new (address name : Bytes) : Destination where
  m_address := address
  m_name := name

/-- `Section`. -/
@[ext] structure Section extends HasMetadata where
  m_id : Identifier
  m_start : Identifier
  m_end : Identifier
  m_dir : AllowedTravel
  m_dest : Option Destination
  deriving DecidableEq

namespace Section

/-- The constructor `Section(Identifier, AllowedTravel, std::unique_ptr<Destination>)`. -/
def new (id : Identifier) (dir : AllowedTravel) (dest : Option Destination) : Section where
  m_id := id
  m_start := ID_NULL
  m_end := ID_NULL
  m_dir := dir
  m_dest := dest

/-- The constructor `Section(Identifier)`. -/
def ofId (id : Identifier) : Section := .new id .UNIDIR none

/-- `isBidir()`. -/
def isBidir (sec : Section) : Bool := sec.m_dir == .BIDIR

/-- `allowsTravel()`. -/
def allowsTravel (sec : Section) : Bool := sec.m_dir != .NONE

/-- `node(SlotId)`. -/
def node (sec : Section) (index : SlotId) : IdRef :=
  match index with
  | 0 => sec.m_start
  | 1 => sec.m_end
  | _ => ID_INVALID

/-- `isConnected()`. -/
def isConnected (sec : Section) : Bool := sec.m_start != ID_NULL

/-- The address of the section's destination, if it is one. -/
def address? (sec : Section) : Option Bytes := sec.m_dest.map Destination.m_address

end Section

end PiwcsPrw
