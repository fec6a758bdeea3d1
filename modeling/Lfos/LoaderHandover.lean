import Lfos.ByteViews
import Lfos.LoaderMappings
import Mathlib.Data.Set.BooleanAlgebra
import Mathlib.Data.Set.Disjoint
import Mathlib.Order.CompletePartialOrder

/-!
# What the loader hands over to the kernel

The loader maps the kernel, the framebuffer, an area with its structures and the files one after the other
into the upper half of the address space. The structures tell the kernel where to look: the memory regions
follow the first structure, the file descriptors follow the regions, and each descriptor has the distance
of its file. The kernel computes the addresses from what it reads through the tables of the loader.
-/

namespace Lfos.LoaderHandover

open ByteLists ByteViews LoaderPaging PageTables PhysicalBytes Words

open Lfos.LoaderMemoryMap (MemoryRegion LoaderScratchpad)

structure LoaderStruct where
  signature : UInt64
  size : UInt16
  fbLocation : UInt64
  fbWidth : UInt16
  fbHeight : UInt16
  fbBpp : UInt8
  fbReserved1 : UInt8
  fbStride : UInt16
  numMemDesc : UInt64
  numFiles : UInt64
  firmwareInfo : UInt64

/-- The structure is packed. -/
def LoaderStruct.bytes (struct : LoaderStruct) : List UInt8 :=
  toBytes 8 struct.signature.toNat ++ (toBytes 2 struct.size.toNat ++ (toBytes 8 struct.fbLocation.toNat ++
    (toBytes 2 struct.fbWidth.toNat ++ (toBytes 2 struct.fbHeight.toNat ++ (toBytes 1 struct.fbBpp.toNat ++
      (toBytes 1 struct.fbReserved1.toNat ++ (toBytes 2 struct.fbStride.toNat ++ (toBytes 8 struct.numMemDesc.toNat ++
        (toBytes 8 struct.numFiles.toNat ++ toBytes 8 struct.firmwareInfo.toNat)))))))))

def regionBytes (region : MemoryRegion) : List UInt8 :=
  toBytes 8 region.startAddress ++ (toBytes 8 region.numPages ++ toBytes 8 region.flags)

/-- A region is made of words. -/
def RegionWords (region : MemoryRegion) : Prop :=
  region.startAddress < 2 ^ 64 ∧ region.numPages < 2 ^ 64 ∧ region.flags < 2 ^ 64

/-- A file that was loaded into pages of the physical memory. -/
structure LoaderFileDescriptor where
  name : List UInt8
  size : Nat
  data : Nat
  named : name.length = 256
  aligned : data % 4096 = 0
  inMemory : data + size ≤ 2 ^ 52

/-- A file as the kernel is told of it. -/
structure FileDescriptor where
  name : List UInt8
  size : Nat
  offset : Nat

def FileDescriptor.bytes (descriptor : FileDescriptor) : List UInt8 :=
  descriptor.name ++ (toBytes 8 descriptor.size ++ toBytes 8 descriptor.offset)

/-- What the loader has gathered before it makes the tables. The kernel was loaded to pages of the
physical memory, and the arrays are in it, too. -/
structure LoaderState where
  loaderStruct : LoaderStruct
  loaderStart : Nat
  loaderSize : Nat
  scratchpad : Nat
  physicalKernelLocation : Nat
  kernelSize : Nat
  memoryMap : List MemoryRegion
  fileDescriptors : List LoaderFileDescriptor
  sized : loaderStruct.size = 50
  regionsCounted : loaderStruct.numMemDesc.toNat = memoryMap.length
  filesCounted : loaderStruct.numFiles.toNat = fileDescriptors.length
  regionsWords : ∀ region ∈ memoryMap, RegionWords region
  kernelAligned : physicalKernelLocation % 4096 = 0
  kernelInMemory : physicalKernelLocation + kernelSize ≤ 2 ^ 52
  regionsInMemory : 24 * memoryMap.length ≤ 2 ^ 52
  filesInMemory : 272 * fileDescriptors.length ≤ 2 ^ 52

def higherHalf : Nat := 0xffffffff80000000

def kernelStart : Nat := higherHalf + 16 * 2 ^ 20

/-- The bytes of the framebuffer, multiplied as signed numbers of 32 bits and widened to a word. -/
def fbSize (struct : LoaderStruct) : Nat :=
  (i32 (i32 (struct.fbStride.toNat * struct.fbHeight.toNat) * struct.fbBpp.toNat) % 2 ^ 64).toNat

/-- Write to the physical memory. -/
def poke (machine : Machine) (address : Nat) (bytes : List UInt8) : Machine :=
  { machine with memory := pokeBytes machine.memory address bytes }

/-- The framebuffer is mapped if there is one. The result is also the structure with the new location and
the address after the framebuffer. -/
def mapFramebuffer (struct : LoaderStruct) (machine : Machine) (pml4 filesStart : Nat) :
    Option (Machine × LoaderStruct × Nat) :=
  if struct.fbLocation = 0 then some (machine, struct, filesStart)
  else
    (mapPages machine pml4 filesStart struct.fbLocation.toNat (fbSize struct)).map (fun machine =>
      (machine, { struct with fbLocation := UInt64.ofNat filesStart }, u64 (filesStart + 4096 * pagesIn (fbSize struct))))

def loaderStructsAreaSize (struct : LoaderStruct) : Nat :=
  u64 (struct.size.toNat + u64 (struct.numMemDesc.toNat * 24) + u64 (struct.numFiles.toNat * 272))

/-- The descriptors of the files are written and the files are mapped. The result is also what was
written. -/
def mapFiles (pml4 loaderStructFinal : Nat) :
    Machine → Nat → Nat → List LoaderFileDescriptor → Option (Machine × List FileDescriptor)
  | machine, _, _, [] => some (machine, [])
  | machine, slot, filesStart, file :: rest =>
    let descriptor : FileDescriptor := ⟨file.name, file.size, u64Sub filesStart loaderStructFinal⟩
    (mapPages (poke machine slot descriptor.bytes) pml4 filesStart file.data file.size).bind (fun machine =>
      (mapFiles pml4 loaderStructFinal machine (u64 (slot + 272)) (u64 (filesStart + 4096 * pagesIn file.size)) rest).map
        (fun mapped => (mapped.1, descriptor :: mapped.2)))

/-- The state in which the kernel is entered. -/
structure Handover where
  machine : Machine
  pml4 : Nat
  loaderStruct : LoaderStruct
  loaderStructFinal : Nat
  fileDescriptors : List FileDescriptor

/-- The structures and the files, from the address after the framebuffer on. -/
def mapStructures (state : LoaderState) (struct : LoaderStruct) (machine : Machine) (pml4 filesStart : Nat) :
    Option Handover :=
  (allocate machine (loaderStructsAreaSize struct) 4096).bind (fun taken =>
    let loaderStructsArea := taken.1
    let regions := u64 (loaderStructsArea + struct.size.toNat)
    let written := poke (poke taken.2 loaderStructsArea struct.bytes) regions (state.memoryMap.flatMap regionBytes)
    (mapPages written pml4 filesStart loaderStructsArea (loaderStructsAreaSize struct)).bind (fun machine =>
      (mapFiles pml4 filesStart machine (u64 (regions + u64 (struct.numMemDesc.toNat * 24)))
        (u64 (filesStart + 4096 * pagesIn (loaderStructsAreaSize struct))) state.fileDescriptors).map (fun mapped =>
          ⟨mapped.1, pml4, struct, filesStart, mapped.2⟩)))

/-- What is mapped before the framebuffer: the loader, its scratchpad, the scratchpad of the kernel and the
kernel. -/
def mapKernel (state : LoaderState) (machine : Machine) (pml4 : Nat) : Option Machine :=
  -- The loop over the loader includes its size.
  (mapPages machine pml4 state.loaderStart state.loaderStart (state.loaderSize + 1)).bind (fun machine =>
    (mapPages machine pml4 machine.pad.loaderScratchpad machine.pad.loaderScratchpad machine.pad.loaderScratchpadSize).bind
      (fun machine =>
        (mapPages machine pml4 higherHalf state.scratchpad (16 * 2 ^ 20)).bind (fun machine =>
          mapPages machine pml4 kernelStart state.physicalKernelLocation state.kernelSize)))

def initializeVirtualMemory (state : LoaderState) (machine : Machine) : Option Handover :=
  (allocate machine 4096 4096).bind (fun taken =>
    let pml4 := taken.1 / 4096
    (mapKernel state taken.2 pml4).bind (fun machine =>
      let kernelEnd := u64 (kernelStart + 4096 * pagesIn state.kernelSize)
      (mapFramebuffer state.loaderStruct machine pml4 kernelEnd).bind (fun mapped =>
        mapStructures state mapped.2.1 mapped.1 pml4 mapped.2.2)))

section

variable (view : View) (loaderStruct : Nat)

def readRegion (address : Nat) : Option MemoryRegion :=
  (readNumber view address 8).bind (fun startAddress =>
    (readNumber view (u64 (address + 8)) 8).bind (fun numPages =>
      (readNumber view (u64 (address + 16)) 8).map (fun flags => ⟨startAddress, numPages, flags⟩)))

def readDescriptor (address : Nat) : Option FileDescriptor :=
  (readBytes view address 256).bind (fun name =>
    (readNumber view (u64 (address + 256)) 8).bind (fun size =>
      (readNumber view (u64 (address + 264)) 8).map (fun offset => ⟨name, size, offset⟩)))

def readSize : Option Nat := readNumber view (u64 (loaderStruct + 8)) 2

def readNumMemDesc : Option Nat := readNumber view (u64 (loaderStruct + 26)) 8

def readNumFiles : Option Nat := readNumber view (u64 (loaderStruct + 34)) 8

/-- The regions `init_mm` goes through. -/
def initMm : Option (List MemoryRegion) :=
  (readSize view loaderStruct).bind (fun size =>
    (readNumMemDesc view loaderStruct).bind (fun numMemDesc =>
      readRecords (readRegion view) 24 (u64 (loaderStruct + size)) numMemDesc))

/-- The descriptors `init_symbols` and `init_init` go through. -/
def initInit : Option (List FileDescriptor) :=
  (readSize view loaderStruct).bind (fun size =>
    (readNumMemDesc view loaderStruct).bind (fun numMemDesc =>
      (readNumFiles view loaderStruct).bind (fun numFiles =>
        readRecords (readDescriptor view) 272 (u64 (loaderStruct + size + u64 (numMemDesc * 24))) numFiles)))

end

/-- The bytes the kernel finds at its addresses. -/
def Handover.view (handover : Handover) : View := fun virt =>
  (hardwareTranslate handover.machine.memory handover.pml4 virt).map (byteAt handover.machine.memory)

/-- A part of the address space by its address and size. -/
structure Part where
  start : Nat
  size : Nat

def Part.pages (part : Part) : Set Nat := { page | ∃ offset < part.size, page = u64 (part.start + offset) / 4096 }

/-- The bytes of the framebuffer. -/
def fbBytes (struct : LoaderStruct) : Nat := struct.fbStride.toNat * struct.fbHeight.toNat * struct.fbBpp.toNat

/-- The framebuffer, if there is one. -/
def framebufferParts (state : LoaderState) (handover : Handover) : List Part :=
  if state.loaderStruct.fbLocation = 0 then []
  else [⟨handover.loaderStruct.fbLocation.toNat, fbBytes state.loaderStruct⟩]

def fileParts (handover : Handover) : List Part :=
  handover.fileDescriptors.map (fun descriptor => ⟨u64 (handover.loaderStructFinal + descriptor.offset), descriptor.size⟩)

/-- The kernel image, the framebuffer, the structures and the files. -/
def parts (state : LoaderState) (handover : Handover) : List Part :=
  ⟨kernelStart, state.kernelSize⟩ :: (framebufferParts state handover ++
    ⟨handover.loaderStructFinal, loaderStructsAreaSize state.loaderStruct⟩ :: fileParts handover)

/-- The kernel finds the file at the distance it is told. -/
structure FileFound (handover : Handover) (file : LoaderFileDescriptor) (descriptor : FileDescriptor) : Prop where
  name : descriptor.name = file.name
  size : descriptor.size = file.size
  data : ∀ offset < file.size, hardwareTranslate handover.machine.memory handover.pml4
    (u64 (handover.loaderStructFinal + descriptor.offset + offset)) = some (file.data + offset)

/-- The kernel finds what the loader has left for it, and no two parts of that share a page. -/
structure HandedOver (state : LoaderState) (handover : Handover) : Prop where
  header : readBytes handover.view handover.loaderStructFinal 50 = some handover.loaderStruct.bytes
  regions : initMm handover.view handover.loaderStructFinal = some state.memoryMap
  descriptors : initInit handover.view handover.loaderStructFinal = some handover.fileDescriptors
  files : List.Forall₂ (FileFound handover) state.fileDescriptors handover.fileDescriptors
  apart : (parts state handover).Pairwise (fun left right => Disjoint left.pages right.pages)

/-- The pages of the files. -/
def filePages (files : List LoaderFileDescriptor) : Nat := (files.map (fun file => pagesIn file.size)).sum

/-- The pages from the kernel on are addresses of the processor, up to the end of the lower half. If the
bytes of the framebuffer are not a positive number of 32 bits, the loader goes on too early; only if this
number is negative it goes back behind the kernel, where the rest may fit. -/
def Fits (state : LoaderState) : Prop :=
  let kernel := pagesIn state.kernelSize
  let area := pagesIn (loaderStructsAreaSize state.loaderStruct)
  let files := filePages state.fileDescriptors
  let bytes := fbBytes state.loaderStruct
  if state.loaderStruct.fbLocation = 0 then kernel + area + files ≤ 0x7F000 + 2 ^ 35
  else if bytes < 2 ^ 31 then kernel + pagesIn bytes + area + files ≤ 0x7F000 + 2 ^ 35
  else 2 ^ 31 ≤ bytes % 2 ^ 32 ∧ kernel + area + files + pagesIn (bytes % 2 ^ 32) ≤ 2 ^ 20

end Lfos.LoaderHandover
