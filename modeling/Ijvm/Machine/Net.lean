import Ijvm.Machine.Array

/-!
# Connections

The operating system is part of the environment: each call goes to the transcript
with the data it passes and the result it returned.
-/

namespace Ijvm

open Transcript

def netConnMinNum : Nat := 16

def netMaxBacklog : Nat := 1

def netCheckRef (netRef : Word) : VM Unit := do
  if isNetRef netRef = false then
    destroyIjvmNow .netRef

def socketPrepare : VM Unit := do
  if (← get).netConn.size = 0 then
    marrInit netConn netConnMinNum

/-- Claim an index for the socket, in a table of 16 more entries if no index is free.
The size is a `uint32_t`. -/
def socketSave (sock : Sock) : VM Nat := do
  let netI ← marrAddElement netConn sock
  if netI = sizeMaxUint32 then
    marrResize netConn (((← get).netConn.size + 16) % 2 ^ 32)
    marrAddElement netConn sock
  else
    return netI

def socketStore (sock : Sock) : VM Word := do
  socketPrepare
  let netI ← socketSave sock
  let netRef := indexToRef netTag netI
  netCheckRef netRef
  return netRef

/-- Create an IPv4 TCP socket and return its network reference. The result of the
`malloc` is used without a check. -/
def socketCreate (host : Word) (port : BitVec 16) : VM Word := do
  if ← allocate then
    let fd ← sysCall .socket
    socketStore { fd, fds := -1, client := false, server := false, host, port }
  else
    Program.stop .undefined

/-- Change the socket behind a pointer that is stored at index `netI`. -/
def updateSock (netI : Nat) (sock : Sock) : VM Unit :=
  modify fun s => { s with
    netConn := { s.netConn with values := s.netConn.values.set netI sock } }

def inaddrAny : Word := 0

def netBind (port : Word) : VM Word := do
  let netRef ← socketCreate inaddrAny (port.setWidth 16)
  let netI := refToIndex netRef
  let sock ← marrGetElement netConn netI
  if (← sysCall (.bind sock.fd sock.host sock.port)) = -1 then
    return 0
  else if (← sysCall (.listen sock.fd netMaxBacklog)) = -1 then
    return 0
  else
    let fds ← sysCall (.accept sock.fd)
    updateSock netI { sock with fds := fds }
    if fds = -1 then
      return 0
    else
      updateSock netI { sock with fds := fds, server := true }
      return netRef

def netConnect (host port : Word) : VM Word := do
  let netRef ← socketCreate host (port.setWidth 16)
  let netI := refToIndex netRef
  let sock ← marrGetElement netConn netI
  if (← sysCall (.connect sock.fd sock.host sock.port)) = -1 then
    return 0
  else
    updateSock netI { sock with client := true }
    return netRef

/-- The descriptor that carries the data of a connection, if the socket is
connected in exactly one of the two ways. -/
def Sock.dataFd? (sock : Sock) : Option Int :=
  if sock.client = true ∧ sock.server = false then
    some sock.fd
  else if sock.client = false ∧ sock.server = true then
    some sock.fds
  else
    none

def netRecv (netRef : Word) : VM Byte := do
  netCheckRef netRef
  let sock ← marrGetElement netConn (refToIndex netRef)
  match sock.dataFd? with
  | none => destroyIjvmNow .netRecvSocket
  | some fd =>
      let env ← Program.ask
      let dataBuffer := env.received (← get).clock
      if (← sysCall (.recv fd 1)) ≠ 1 then
        destroyIjvmNow .netRecvCount
      else
        return dataBuffer

/-- The bytes of a word in the memory of a little-endian machine. -/
def wordBytes (w : Word) : List Byte :=
  [w.setWidth 8, (w >>> 8).setWidth 8, (w >>> 16).setWidth 8, (w >>> 24).setWidth 8]

/-- Send the four bytes of a word on a socket with a given network reference. -/
def netSend (netRef data : Word) : VM Unit := do
  netCheckRef netRef
  let sock ← marrGetElement netConn (refToIndex netRef)
  match sock.dataFd? with
  | none => destroyIjvmNow .netSendSocket
  | some fd =>
      if (← sysCall (.send fd (wordBytes data))) ≠ 4 then
        destroyIjvmNow .netSendCount

def closeDescriptor (fd : Int) : VM Unit := do
  let _ ← sysCall (.shutdown fd 2)
  let _ ← sysCall (.close fd)

def netClose (netRef : Word) : VM Unit := do
  netCheckRef netRef
  let netI := refToIndex netRef
  let sock ← marrGetElement netConn netI
  if sock.client = true then
    closeDescriptor sock.fd
    updateSock netI { sock with client := false }
  let sock ← marrGetElement netConn netI
  if sock.server = true then
    closeDescriptor sock.fd
    updateSock netI { sock with server := false }
  let _ ← marrGetElement netConn netI
  marrRemoveElement netConn netI

def netDestroy : VM Unit := do
  let size := (← get).netConn.size
  Program.forRange 0 size fun netI => do
    if ← marrCheckMarked netConn netI then
      netClose (indexToRef netTag netI)
  marrDestroy netConn

end Ijvm
